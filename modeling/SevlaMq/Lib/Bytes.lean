import Mathlib.Data.List.Basic
import Mathlib.Tactic.Ring

/-!
# Big-endian byte strings

Fixed-width big-endian integers and cursor reads on a byte list.  Nothing here knows about a
particular record or frame format.

* `toBE w v` / `ofBE` — the `w`-byte big-endian form of `v` and its value; `ofBE_toBE` is the
  round trip for `v < 256 ^ w`, `toBE_ofBE` the one for bytes.
* `getBE`, `getBytes` — cursor reads.  A read past the end of the buffer returns `none`.
* `toI32` / `ofI32` — the two's-complement reading of a 32-bit field.
-/

set_option autoImplicit false

namespace SevlaMq

abbrev Bytes := List UInt8

/-- The low `w` bytes of `v`, most significant first. -/
def toBE : Nat → Nat → Bytes
  | 0, _ => []
  | w + 1, v => UInt8.ofNat (v / 256 ^ w) :: toBE w v

/-- The value of a big-endian byte string. -/
def ofBE (bs : Bytes) : Nat := bs.foldl (fun acc b => acc * 256 + b.toNat) 0

@[simp] theorem toBE_length (w v : Nat) : (toBE w v).length = w := by
  induction w with
  | zero => rfl
  | succ w ih => simp [toBE, ih]

theorem ofBE_foldl (bs : Bytes) : ∀ acc : Nat,
    bs.foldl (fun acc b => acc * 256 + b.toNat) acc = acc * 256 ^ bs.length + ofBE bs := by
  induction bs with
  | nil => intro acc; simp [ofBE]
  | cons b bs ih =>
    intro acc
    simp only [List.foldl_cons, List.length_cons, ofBE]
    rw [ih, ih]
    ring

theorem ofBE_toBE_mod (w v : Nat) : ofBE (toBE w v) = v % 256 ^ w := by
  induction w with
  | zero => simp [toBE, ofBE, Nat.mod_one]
  | succ w ih =>
    have hstep : ofBE (toBE (w + 1) v) = (v / 256 ^ w) % 256 * 256 ^ w + ofBE (toBE w v) := by
      simp only [toBE, ofBE, List.foldl_cons]
      rw [ofBE_foldl]
      simp [ofBE, UInt8.toNat_ofNat']
    rw [hstep, ih, pow_succ, Nat.mod_mul, Nat.mul_comm, Nat.add_comm]

theorem ofBE_toBE {w v : Nat} (h : v < 256 ^ w) : ofBE (toBE w v) = v := by
  rw [ofBE_toBE_mod, Nat.mod_eq_of_lt h]

theorem ofBE_cons (b : UInt8) (bs : Bytes) :
    ofBE (b :: bs) = b.toNat * 256 ^ bs.length + ofBE bs := by
  show List.foldl _ _ bs = _
  rw [ofBE_foldl]
  simp

theorem ofBE_lt (bs : Bytes) : ofBE bs < 256 ^ bs.length := by
  induction bs with
  | nil => decide
  | cons b bs ih =>
    rw [ofBE_cons, List.length_cons, pow_succ, Nat.mul_comm (256 ^ bs.length)]
    have hnext : b.toNat * 256 ^ bs.length + ofBE bs < (b.toNat + 1) * 256 ^ bs.length := by
      rw [Nat.succ_mul]
      exact Nat.add_lt_add_left ih _
    exact Nat.lt_of_lt_of_le hnext (Nat.mul_le_mul_right _ b.toNat_lt)

/-- Only the low bytes count. -/
theorem toBE_add_mul (w k v : Nat) : toBE w (k * 256 ^ w + v) = toBE w v := by
  induction w generalizing k v with
  | zero => rfl
  | succ w ih =>
    have hsame : k * 256 ^ (w + 1) + v = k * 256 * 256 ^ w + v := by ring
    have hdiv : (k * 256 * 256 ^ w + v) / 256 ^ w = k * 256 + v / 256 ^ w := by
      rw [Nat.add_comm, Nat.add_mul_div_right _ _ (Nat.pow_pos (by decide)), Nat.add_comm]
    rw [hsame, toBE, toBE, ih, hdiv]
    congr 1
    apply UInt8.toNat_inj.1
    simp [UInt8.toNat_ofNat']

/-- Bytes are the big-endian form of their value. -/
theorem toBE_ofBE (bs : Bytes) : toBE bs.length (ofBE bs) = bs := by
  induction bs with
  | nil => rfl
  | cons b bs ih =>
    have hdiv : (b.toNat * 256 ^ bs.length + ofBE bs) / 256 ^ bs.length = b.toNat := by
      rw [Nat.add_comm, Nat.add_mul_div_right _ _ (Nat.pow_pos (by decide)),
        Nat.div_eq_of_lt (ofBE_lt bs), Nat.zero_add]
    rw [List.length_cons, ofBE_cons, toBE, hdiv, toBE_add_mul, ih, UInt8.ofNat_toNat]

/-! ## Cursor reads -/

/-- Read a `w`-byte big-endian integer; `none` past the end of the buffer. -/
def getBE (w : Nat) (buf : Bytes) : Option (Nat × Bytes) :=
  if buf.length < w then none else some (ofBE (buf.take w), buf.drop w)

/-- Split off `n` bytes; `none` past the end of the buffer. -/
def getBytes (n : Nat) (buf : Bytes) : Option (Bytes × Bytes) :=
  if buf.length < n then none else some (buf.take n, buf.drop n)

theorem getBE_append {w v : Nat} (h : v < 256 ^ w) (rest : Bytes) :
    getBE w (toBE w v ++ rest) = some (v, rest) := by
  have hl : ¬ (toBE w v ++ rest).length < w := by simp
  rw [getBE, if_neg hl, List.take_left' (toBE_length w v), List.drop_left' (toBE_length w v),
    ofBE_toBE h]

/-- Only a number that is written at the front is read. -/
theorem getBE_eq_some {w v : Nat} {buf rest : Bytes} :
    getBE w buf = some (v, rest) ↔ v < 256 ^ w ∧ buf = toBE w v ++ rest := by
  constructor
  · intro h
    unfold getBE at h
    split at h
    · cases h
    · rename_i hlen
      cases h
      have htake : (buf.take w).length = w := List.length_take_of_le (Nat.not_lt.1 hlen)
      have hlt := ofBE_lt (buf.take w)
      have hbytes := toBE_ofBE (buf.take w)
      rw [htake] at hlt hbytes
      exact ⟨hlt, by rw [hbytes, List.take_append_drop]⟩
  · rintro ⟨hv, rfl⟩
    exact getBE_append hv rest

theorem getBytes_append (bs rest : Bytes) :
    getBytes bs.length (bs ++ rest) = some (bs, rest) := by
  have hl : ¬ (bs ++ rest).length < bs.length := by simp
  rw [getBytes, if_neg hl, List.take_left, List.drop_left]

/-! ## Signed 32-bit fields -/

/-- The signed reading of a 32-bit field. -/
def toI32 (n : Nat) : Int := if n < 2 ^ 31 then n else (n : Int) - 2 ^ 32

/-- The 32-bit field of a signed value. -/
def ofI32 (i : Int) : Nat := (i % 2 ^ 32).toNat

theorem ofI32_lt (i : Int) : ofI32 i < 256 ^ 4 := by
  unfold ofI32
  omega

theorem toI32_ofI32_nat {n : Nat} (h : n < 2 ^ 31) : toI32 (ofI32 (n : Int)) = n := by
  have h1 : ofI32 (n : Int) = n := by
    unfold ofI32
    omega
  rw [h1, toI32, if_pos h]

theorem toI32_ofI32_neg_one : toI32 (ofI32 (-1)) = -1 := by decide

end SevlaMq
