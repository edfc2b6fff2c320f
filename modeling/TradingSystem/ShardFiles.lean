import TradingSystem.LogReader

/-!
# The files of a deployment

All processes of a deployment meet in files whose paths are built from one
`log_base`: `src/engine_main.cpp` and `src/trades_subscriber_main.cpp` add the
shard, `include/log_backed_order_queue.hpp` and `include/trade_log.hpp` the
rest. Consumer and subscriber ids are free text, so that the paths differ is
not a matter of how the ids are chosen.
-/

namespace TradingSystem

/-- `shard_base`. -/
def shardBase (logBase : String) (shard : UInt32) : String :=
  logBase ++ "_shard" ++ toString shard.toNat

/-- What a shard keeps in files. -/
inductive ShardFile where
  | orders
  | leader
  | trades
  | checkpoint (api : LogApi) (id : String)

namespace ShardFile

def path (base : String) : ShardFile → String
  | .orders => base ++ ".log"
  | .leader => base ++ ".leader"
  | .trades => base ++ "_trades.log"
  | .checkpoint api id => api.checkpointPath base id

/-- What follows the base. -/
def extension (f : ShardFile) : List Char := (f.path "").toList

theorem path_toList (base : String) (f : ShardFile) :
    (f.path base).toList = base.toList ++ f.extension := by
  cases f with
  | orders | leader | trades => simp [path, extension]
  | checkpoint api id =>
    cases api <;> simp [path, extension, LogApi.checkpointPath, List.append_assoc]

/-- The first and the last character of the extension. -/
def marks : ShardFile → Char × Char
  | .orders => ('.', 'g')
  | .leader => ('.', 'r')
  | .trades => ('_', 'g')
  | .checkpoint .orderQueue _ => ('.', 't')
  | .checkpoint .tradeLog _ => ('_', 't')

theorem extension_marks (f : ShardFile) :
    f.extension.head? = some f.marks.1 ∧ f.extension.getLast? = some f.marks.2 := by
  cases f with
  | orders | leader | trades => decide
  | checkpoint api id =>
    cases api with
    | tradeLog => simp [extension, path, LogApi.checkpointPath, marks, List.getLast?_cons]
    | orderQueue =>
      by_cases hid : id = ""
      · simp [extension, path, LogApi.checkpointPath, marks, hid]
      · simp [extension, path, LogApi.checkpointPath, marks, hid, List.getLast?_cons]

theorem extension_injective {f f' : ShardFile} (h : f.extension = f'.extension) : f = f' := by
  have hmarks : f.marks = f'.marks := by
    obtain ⟨hhead, hlast⟩ := f.extension_marks
    obtain ⟨hhead', hlast'⟩ := f'.extension_marks
    rw [h] at hhead hlast
    exact Prod.ext (Option.some.inj (hhead.symm.trans hhead'))
      (Option.some.inj (hlast.symm.trans hlast'))
  -- the marks tell the kinds apart, and within a kind the ids differ
  cases f with
  | orders | leader | trades =>
    cases f' with
    | orders | leader | trades => first | rfl | cases hmarks
    | checkpoint api id => cases api <;> cases hmarks
  | checkpoint api id =>
    cases f' with
    | orders | leader | trades => cases api <;> cases hmarks
    | checkpoint api' id' =>
      have hapi : api = api' := by
        cases api <;> cases api' <;> first | rfl | cases hmarks
      subst hapi
      rw [api.checkpointPath_injective "" (String.toList_inj.mp h)]

end ShardFile

/-- **Every file has a path of its own.** Shards, and within a shard the order
log, the leader lock, the trade log and the checkpoints of all ids, never share
a path. -/
theorem shardFile_path_injective (logBase : String) :
    Function.Injective fun p : UInt32 × ShardFile => p.2.path (shardBase logBase p.1) := by
  rintro ⟨shard, f⟩ ⟨shard', f'⟩ h
  have hlist := congrArg String.toList h
  simp only [ShardFile.path_toList, shardBase, String.toList_append, List.append_assoc,
    List.append_cancel_left_eq, Nat.toString_eq_repr, Nat.toList_repr] at hlist
  -- the number of the shard ends where the digits do
  have hdigits : ∀ (n : ℕ) (g : ShardFile),
      (Nat.toDigits 10 n ++ g.extension).takeWhile Char.isDigit = Nat.toDigits 10 n := by
    intro n g
    rw [List.takeWhile_append_of_pos fun c hc =>
      Nat.isDigit_of_mem_toDigits (by decide) (by decide) hc]
    cases hext : g.extension with
    | nil => simp
    | cons c rest =>
      have hhead := g.extension_marks.1
      rw [hext, List.head?_cons, Option.some.injEq] at hhead
      have hmark : g.marks.1.isDigit = false := by
        cases g with
        | orders | leader | trades => decide
        | checkpoint api id => cases api <;> rfl
      simp [hhead, hmark]
  have hnum : Nat.toDigits 10 shard.toNat = Nat.toDigits 10 shard'.toNat := by
    rw [← hdigits _ f, hlist, hdigits]
  have hshard : shard = shard' := by
    apply UInt32.toNat_inj.mp
    rw [← Nat.ofDigitChars_toDigits (b := 10) (n := shard.toNat) (by decide) (by decide), hnum,
      Nat.ofDigitChars_toDigits (by decide) (by decide)]
  subst hshard
  rw [ShardFile.extension_injective (List.append_cancel_left hlist)]

end TradingSystem
