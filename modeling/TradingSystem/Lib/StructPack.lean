import Mathlib.Algebra.BigOperators.Group.List.Basic
import Mathlib.Algebra.Order.Ring.Nat

/-!
# Packed records

Little-endian numbers as bytes, and records as Python's `struct.pack` writes
them in its standard little-endian mode: the items of a format one after the
other, with no alignment but the padding the format asks for.
-/

namespace StructPack

/-! ## Little-endian numbers -/

/-- The low `n` bytes of a number. -/
def encode : ℕ → ℕ → List UInt8
  | 0, _ => []
  | n + 1, x => UInt8.ofNat x :: encode n (x / 256)

def decode (bytes : List UInt8) : ℕ := bytes.foldr (fun b rest => b.toNat + 256 * rest) 0

@[simp] theorem encode_length (n x : ℕ) : (encode n x).length = n := by
  induction n generalizing x with
  | zero => rfl
  | succ n ih => rw [encode, List.length_cons, ih]

@[simp] theorem decode_cons (b : UInt8) (bytes : List UInt8) :
    decode (b :: bytes) = b.toNat + 256 * decode bytes := rfl

theorem decode_encode (n x : ℕ) : decode (encode n x) = x % 256 ^ n := by
  induction n generalizing x with
  | zero => rw [Nat.pow_zero, Nat.mod_one]; rfl
  | succ n ih =>
    have hlow : (UInt8.ofNat x).toNat = x % 256 := UInt8.toNat_ofNat'
    rw [encode, decode_cons, ih, hlow, Nat.pow_succ', Nat.mod_mul]

theorem encode_decode (bytes : List UInt8) : encode bytes.length (decode bytes) = bytes := by
  induction bytes with
  | nil => rfl
  | cons b bytes ih =>
    have hb : b.toNat < 256 := b.toNat_lt
    have hlow : UInt8.ofNat (b.toNat + 256 * decode bytes) = b := by
      apply UInt8.toNat_inj.mp
      rw [UInt8.toNat_ofNat']
      omega
    have hhigh : (b.toNat + 256 * decode bytes) / 256 = decode bytes := by omega
    rw [List.length_cons, encode, decode_cons, hlow, hhigh, ih]

theorem decode_lt (bytes : List UInt8) : decode bytes < 256 ^ bytes.length := by
  induction bytes with
  | nil => exact Nat.one_pos
  | cons b bytes ih =>
    have hb : b.toNat < 256 := b.toNat_lt
    rw [decode_cons, List.length_cons, Nat.pow_succ]
    omega

theorem decode_inj {a b : List UInt8} (hlen : a.length = b.length) :
    decode a = decode b ↔ a = b := by
  refine ⟨fun h => ?_, fun h => by rw [h]⟩
  rw [← encode_decode a, ← encode_decode b, h, hlen]

/-! ## Records -/

/-- `B` and `Q` are unsigned integers of one and of eight bytes, `d` is a
double, `8s` a byte string, `6x` padding. -/
inductive Item where
  | uint (width : ℕ)
  | double
  | bytes (n : ℕ)
  | pad (n : ℕ)
  deriving DecidableEq, Repr

/-- An argument; a float is its bit pattern. -/
inductive Arg where
  | int (x : ℤ)
  | float (bits : UInt64)
  | bytes (b : List UInt8)
  deriving DecidableEq, Repr

def Item.size : Item → ℕ
  | .uint width => width
  | .double => 8
  | .bytes n => n
  | .pad n => n

def calcsize (fmt : List Item) : ℕ := (fmt.map Item.size).sum

/-- A byte string is cut or filled with zeros to its size. -/
def fit (n : ℕ) (b : List UInt8) : List UInt8 := (b.take n).rightpad n 0

/-- The bytes of an item for its argument, `none` for an argument of another
type or an integer out of range. -/
def Item.field : Item → Arg → Option (List UInt8)
  | .uint width, .int x =>
    if 0 ≤ x ∧ x < 256 ^ width then some (encode width x.toNat) else none
  | .double, .float bits => some (encode 8 bits.toNat)
  | .bytes n, .bytes b => some (fit n b)
  | _, _ => none

/-- `none` where `struct.error` is raised. Padding takes no argument. -/
def pack : List Item → List Arg → Option (List UInt8)
  | [], [] => some []
  | .pad n :: fmt, args => (pack fmt args).map (List.replicate n 0 ++ ·)
  | item :: fmt, arg :: args => (item.field arg).bind fun field => (pack fmt args).map (field ++ ·)
  | _, _ => none

@[simp] theorem fit_length (n : ℕ) (b : List UInt8) : (fit n b).length = n := by
  rw [fit, List.rightpad, List.length_append, List.length_replicate, List.length_take]
  omega

theorem fit_of_length {n : ℕ} {b : List UInt8} (h : b.length = n) : fit n b = b := by
  rw [fit, List.take_of_length_le h.le, List.rightpad, h, Nat.sub_self, List.replicate_zero,
    List.append_nil]

theorem fit_getElem? {n i : ℕ} (hi : i < n) (b : List UInt8) : (fit n b)[i]? = some (b.getD i 0) := by
  by_cases hb : i < b.length
  · have hlt : i < (b.take n).length := by rw [List.length_take]; omega
    rw [fit, List.rightpad, List.getElem?_append_left hlt, List.getElem?_take_of_lt hi,
      List.getD_eq_getElem?_getD, List.getElem?_eq_getElem hb, Option.getD_some]
  · have hge : (b.take n).length ≤ i := by rw [List.length_take]; omega
    rw [fit, List.rightpad, List.getElem?_append_right hge, List.getElem?_replicate,
      if_pos (by omega), List.getD_eq_getElem?_getD, List.getElem?_eq_none (by omega),
      Option.getD_none]

theorem field_length {item : Item} {arg : Arg} {field : List UInt8}
    (h : item.field arg = some field) : field.length = item.size := by
  unfold Item.field at h
  split at h
  · split at h
    · obtain rfl := Option.some.inj h
      exact encode_length _ _
    · cases h
  · obtain rfl := Option.some.inj h
    exact encode_length _ _
  · obtain rfl := Option.some.inj h
    exact fit_length _ _
  · cases h

/-- A record has the size of its format. -/
theorem pack_length {fmt : List Item} {args : List Arg} {bytes : List UInt8}
    (h : pack fmt args = some bytes) : bytes.length = calcsize fmt := by
  fun_induction pack fmt args generalizing bytes with
  | case1 =>
    obtain rfl := Option.some.inj h
    rfl
  | case2 args n fmt ih =>
    obtain ⟨rest, hrest, rfl⟩ := Option.map_eq_some_iff.mp h
    rw [List.length_append, List.length_replicate, ih hrest]
    rfl
  | case3 item fmt arg args _ ih =>
    obtain ⟨field, hfield, h⟩ := Option.bind_eq_some_iff.mp h
    obtain ⟨rest, hrest, rfl⟩ := Option.map_eq_some_iff.mp h
    rw [List.length_append, field_length hfield, ih hrest]
    rfl
  | case4 => cases h

theorem pack_uint {width x : ℕ} (h : x < 256 ^ width) (fmt : List Item) (args : List Arg) :
    pack (.uint width :: fmt) (.int x :: args) =
      (pack fmt args).map (encode width x ++ ·) := by
  have hrange : 0 ≤ (x : ℤ) ∧ (x : ℤ) < 256 ^ width := ⟨Int.natCast_nonneg x, by exact_mod_cast h⟩
  rw [pack, Item.field, if_pos hrange, Option.bind_some, Int.toNat_natCast]
  all_goals simp

theorem pack_double (bits : UInt64) (fmt : List Item) (args : List Arg) :
    pack (.double :: fmt) (.float bits :: args) =
      (pack fmt args).map (encode 8 bits.toNat ++ ·) := rfl

theorem pack_bytes (n : ℕ) (b : List UInt8) (fmt : List Item) (args : List Arg) :
    pack (.bytes n :: fmt) (.bytes b :: args) = (pack fmt args).map (fit n b ++ ·) := rfl

theorem pack_pad (n : ℕ) (fmt : List Item) (args : List Arg) :
    pack (.pad n :: fmt) args = (pack fmt args).map (List.replicate n 0 ++ ·) := by
  rw [pack]

end StructPack
