import Mathlib.Data.List.Basic
import Mathlib.Tactic.Ring

/-!
# Blocks of bytes

A block of C memory is the list of its bytes.  Reads and writes are checked
against the length of the block:

* `memcpy_append`, `load_append`: a copy to, or from, the place where a known
  prefix of the block ends;
* `leValue_leBytes`, `leBytes_leValue`: integers and their little-endian bytes
  determine each other;
* `malloc_length`, `malloc_getElem`: a fresh block has the requested length and
  unspecified contents.
-/

namespace DeepSpace.Memory

/-- Where the language gives a C program no meaning. -/
inductive Fault where
  | outOfBounds
  | nullDereference
  | uninitialised
  deriving DecidableEq, Repr

/-- A C computation: a value, or a fault. -/
abbrev C (α : Type) := Except Fault α

theorem bind_eq_ok {α β : Type} {x : C α} {f : α → C β} {b : β} (h : x >>= f = .ok b) :
    ∃ a, x = .ok a ∧ f a = .ok b := by
  cases x with
  | error e => cases h
  | ok a => exact ⟨a, rfl, h⟩

/-! ## Little-endian integers -/

/-- The `n` low bytes of `v`, least significant first. -/
def leBytes : Nat → Nat → List UInt8
  | 0, _ => []
  | n + 1, v => UInt8.ofNat v :: leBytes n (v / 256)

def leValue : List UInt8 → Nat
  | [] => 0
  | b :: bs => b.toNat + 256 * leValue bs

@[simp] theorem leBytes_length (n v : Nat) : (leBytes n v).length = n := by
  induction n generalizing v with
  | zero => rfl
  | succ n ih => simp [leBytes, ih]

theorem leValue_lt (bs : List UInt8) : leValue bs < 256 ^ bs.length := by
  induction bs with
  | nil => simp [leValue]
  | cons b bs ih =>
    have hb : b.toNat < 256 := b.toNat_lt
    simp only [leValue, List.length_cons, pow_succ]
    omega

theorem leValue_leBytes (n v : Nat) (h : v < 256 ^ n) : leValue (leBytes n v) = v := by
  induction n generalizing v with
  | zero =>
    have hv : v = 0 := by simpa using h
    simp [leBytes, leValue, hv]
  | succ n ih =>
    have hd : v / 256 < 256 ^ n := by
      rw [Nat.div_lt_iff_lt_mul (by decide), ← pow_succ]; exact h
    simp only [leBytes, leValue, ih _ hd, UInt8.toNat_ofNat']
    omega

theorem leBytes_leValue (bs : List UInt8) : leBytes bs.length (leValue bs) = bs := by
  induction bs with
  | nil => rfl
  | cons b bs ih =>
    have hb : b.toNat < 256 := b.toNat_lt
    have hq : (b.toNat + 256 * leValue bs) / 256 = leValue bs := by omega
    have hr : UInt8.ofNat (b.toNat + 256 * leValue bs) = b := by
      apply UInt8.toNat_inj.mp
      rw [UInt8.toNat_ofNat']
      omega
    simp only [List.length_cons, leBytes, leValue, hq, hr, ih]

/-! ## Copies -/

/-- `memcpy (dst + off, src, n)` for the `n` bytes of `src`. -/
def memcpy (dst : List UInt8) (off : Nat) (src : List UInt8) : C (List UInt8) :=
  if off + src.length ≤ dst.length then
    .ok (dst.take off ++ src ++ dst.drop (off + src.length))
  else .error .outOfBounds

/-- The `n` bytes at `src + off`. -/
def load (src : List UInt8) (off n : Nat) : C (List UInt8) :=
  if off + n ≤ src.length then .ok ((src.drop off).take n) else .error .outOfBounds

theorem memcpy_append (pre rest src : List UInt8) (off : Nat) (hoff : pre.length = off)
    (h : src.length ≤ rest.length) :
    memcpy (pre ++ rest) off src = .ok (pre ++ src ++ rest.drop src.length) := by
  subst hoff
  have hb : pre.length + src.length ≤ (pre ++ rest).length := by
    simp only [List.length_append]; omega
  rw [memcpy, if_pos hb, List.take_left, List.drop_append]
  have hd : pre.drop (pre.length + src.length) = [] := List.drop_eq_nil_of_le (by omega)
  rw [hd, Nat.add_sub_cancel_left, List.nil_append]

theorem load_append (pre mid post : List UInt8) (off n : Nat) (hoff : pre.length = off)
    (hn : mid.length = n) : load (pre ++ (mid ++ post)) off n = .ok mid := by
  subst hoff hn
  have hb : pre.length + mid.length ≤ (pre ++ (mid ++ post)).length := by
    simp only [List.length_append]; omega
  rw [load, if_pos hb, List.drop_left, List.take_left]

theorem load_of_le (src : List UInt8) (off n : Nat) (h : off + n ≤ src.length) :
    load src off n = .ok ((src.drop off).take n) := if_pos h

theorem load_of_lt (src : List UInt8) (off n : Nat) (h : src.length < off + n) :
    load src off n = .error .outOfBounds := if_neg (by omega)

theorem memcpy_length {dst src out : List UInt8} {off : Nat} (h : memcpy dst off src = .ok out) :
    out.length = dst.length := by
  unfold memcpy at h
  split at h
  · cases h
    simp only [List.length_append, List.length_take, List.length_drop]
    omega
  · cases h

/-- The little-endian integer in the `n` bytes at `src + off`. -/
def loadLE (src : List UInt8) (off n : Nat) : C Nat := leValue <$> load src off n

theorem loadLE_append (pre mid post : List UInt8) (off n : Nat) (hoff : pre.length = off)
    (hn : mid.length = n) : loadLE (pre ++ (mid ++ post)) off n = .ok (leValue mid) := by
  rw [loadLE, load_append pre mid post off n hoff hn]
  rfl

/-! ## Fresh blocks -/

/-- `malloc (n)`: a block of `n` bytes that hold whatever `stale` says. -/
def malloc (n : Nat) (stale : Nat → UInt8) : List UInt8 := (List.range n).map stale

@[simp] theorem malloc_length (n : Nat) (stale : Nat → UInt8) : (malloc n stale).length = n := by
  simp [malloc]

@[simp] theorem malloc_getElem (n : Nat) (stale : Nat → UInt8) (i : Nat)
    (h : i < (malloc n stale).length) : (malloc n stale)[i] = stale i := by
  simp [malloc]

end DeepSpace.Memory
