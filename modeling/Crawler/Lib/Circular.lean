/-
# Crawler.Lib.Circular — a 32-bit clock that wraps around

Two readings of such a clock are compared by the sign of their difference. This is no order, but it is one
on the readings of any span of less than 2^31 ticks (`InSpan`), wherever the span lies: there it is the
order of the distances from its start.
-/
import Mathlib.Order.Basic
import Mathlib.Tactic.Common

namespace Crawler.Lib.Circular

/-- The distance of a reading from the start of a span. -/
def offset (start x : UInt32) : Nat := (x - start).toNat

/-- The reading lies in the span of 2^31 ticks from `start` on. -/
def InSpan (start x : UInt32) : Prop := offset start x < 2147483648

/-- The reading `x` is not after `y`, by the sign of their difference. -/
def NotAfter (x y : UInt32) : Prop := (x - y).toInt32 ≤ 0

instance (start x : UInt32) : Decidable (InSpan start x) := by unfold InSpan; infer_instance

instance (x y : UInt32) : Decidable (NotAfter x y) := by unfold NotAfter; infer_instance

variable {start x y : UInt32}

/-- In a span the difference of two readings, taken as signed, is that of their distances. -/
theorem toInt_sub (hx : InSpan start x) (hy : InSpan start y) :
    (x - y).toInt32.toInt = (offset start x : Int) - offset start y := by
  have hdiff : x - y = (x - start) - (y - start) := by grind
  unfold InSpan offset at hx hy
  unfold offset
  rw [hdiff]
  generalize x - start = u at *
  generalize y - start = v at *
  -- the difference of two small numbers, read as signed
  rw [← Int32.toInt_toBitVec, UInt32.toBitVec_toInt32, BitVec.toInt_eq_toNat_cond]
  simp only [UInt32.toNat_toBitVec, UInt32.toNat_sub]
  split <;> omega

theorem notAfter_iff (hx : InSpan start x) (hy : InSpan start y) :
    NotAfter x y ↔ offset start x ≤ offset start y := by
  rw [NotAfter, Int32.le_iff_toInt_le, toInt_sub hx hy, Int32.toInt_zero]
  omega

theorem NotAfter.refl (x : UInt32) : NotAfter x x := by
  rw [NotAfter, UInt32.sub_self]
  decide

/-- In a span the comparison is transitive. -/
theorem NotAfter.trans {z : UInt32} (hx : InSpan start x) (hy : InSpan start y) (hz : InSpan start z)
    (hxy : NotAfter x y) (hyz : NotAfter y z) : NotAfter x z := by
  rw [notAfter_iff hx hy] at hxy
  rw [notAfter_iff hy hz] at hyz
  rw [notAfter_iff hx hz]
  exact Nat.le_trans hxy hyz

/-- Less than half of the clock ahead is after it. -/
theorem not_notAfter_add {d : UInt32} (hpos : 0 < d) (hd : d < 2147483648) : ¬ NotAfter (x + d) x := by
  have hdiff : x + d - x = d := by grind
  have hlow : 0 < d.toNat := UInt32.lt_iff_toNat_lt.mp hpos
  have hhigh : d.toNat < 2147483648 := UInt32.lt_iff_toNat_lt.mp hd
  rw [NotAfter, hdiff, Int32.le_iff_toInt_le, Int32.toInt_zero, ← Int32.toInt_toBitVec,
    UInt32.toBitVec_toInt32, BitVec.toInt_eq_toNat_cond, UInt32.toNat_toBitVec]
  split <;> omega

/-- A reading and less ticks than are left of the span. -/
theorem offset_add {d : UInt32} (h : offset start y + d.toNat < 2147483648) :
    offset start (y + d) = offset start y + d.toNat := by
  have hsum : y + d - start = (y - start) + d := by grind
  unfold offset at h ⊢
  rw [hsum, UInt32.toNat_add, Nat.mod_eq_of_lt]
  omega

/-- A reading that lies before `x` still when `d` ticks have gone by. -/
theorem not_notAfter_of_lt (hx : InSpan start x) {d : UInt32}
    (hd : offset start y + d.toNat < offset start x) : ¬ NotAfter x (y + d) := by
  have hhalf : offset start x < 2147483648 := hx
  have hsum : offset start (y + d) = offset start y + d.toNat := offset_add (by omega)
  have hspan : InSpan start (y + d) := by
    rw [InSpan, hsum]
    omega
  rw [notAfter_iff hx hspan, hsum]
  omega

/-- The ticks from a reading to a later one. -/
theorem toNat_sub (h : offset start y ≤ offset start x) :
    (x - y).toNat = offset start x - offset start y := by
  have hdiff : x - y = (x - start) - (y - start) := by grind
  rw [hdiff, UInt32.toNat_sub_of_le _ _ (UInt32.le_iff_toNat_le.mpr h)]
  rfl

theorem not_notAfter_iff : ¬ NotAfter x y ↔ 0 < (x - y).toInt32 := Int32.not_le

/-- Readings of one span in the order of their distances. -/
theorem pairwise_notAfter_iff {α : Type*} {key : α → UInt32} {xs : List α}
    (h : ∀ a ∈ xs, InSpan start (key a)) :
    xs.Pairwise (fun a b => NotAfter (key a) (key b)) ↔
      xs.Pairwise fun a b => offset start (key a) ≤ offset start (key b) :=
  List.Pairwise.iff_of_mem fun ha hb => notAfter_iff (h _ ha) (h _ hb)

/-- A negative difference. -/
theorem sub_neg_iff (hx : InSpan start x) (hy : InSpan start y) :
    (x - y).toInt32 < 0 ↔ offset start x < offset start y := by
  rw [Int32.lt_iff_toInt_lt, toInt_sub hx hy, Int32.toInt_zero]
  omega

end Crawler.Lib.Circular
