/-
Module: Joshua.Proofs.HugePages
Purpose: A split into huge pages is found whenever there is one, and no split
  within the pools has fewer page entries.
Trusted boundary: none
-/
import Joshua.Model.HugePages

namespace Joshua.Mapping
open Joshua.Foundation

/-- Pages of the two sizes that lie within the pools and cover the model. -/
structure Covers (len gib mib : UInt64) (large small : Nat) : Prop where
  head : large * page1Gib ≤ gib.toNat
  tail : small * page2Mib ≤ mib.toNat
  covered : len.toNat ≤ large * page1Gib + small * page2Mib

/-- The 1 GiB pages of the head: as many as the model needs and the pool has. -/
def headCount (len gib : UInt64) : Nat :=
  min ((len.toNat + (page1Gib - 1)) / page1Gib) (gib.toNat / page1Gib)

/-- The 2 MiB pages that the head leaves to the tail. -/
def tailCount (len gib : UInt64) : Nat :=
  (len.toNat + (page2Mib - 1)) / page2Mib - 512 * headCount len gib

section
variable {len gib mib : UInt64}

lemma page1Gib_eq : page1Gib = 1073741824 := by
  simp [page1Gib]

lemma page2Mib_eq : page2Mib = 2097152 := by
  simp [page2Mib]

lemma page2Mib_pos : 0 < page2Mib := by
  simp [page2Mib_eq]

lemma planHugeSplit_eq (bound : len.toNat ≤ 2 ^ 63) : planHugeSplit len gib mib =
    if tailCount len gib * page2Mib ≤ mib.toNat then
      some ⟨headCount len gib * page1Gib, tailCount len gib * page2Mib⟩
    else none := by
  have fits : len.toNat + (page2Mib - 1) < u64Limit := by
    simp only [page2Mib_eq, u64Limit]
    omega
  have fitsHead : (len.toNat + (page2Mib - 1)) / page2Mib * page2Mib + (page1Gib - 1) <
      u64Limit := by
    simp only [page1Gib_eq, page2Mib_eq, u64Limit]
    omega
  have whole : ((len.toNat + (page2Mib - 1)) / page2Mib * page2Mib + (page1Gib - 1)) /
      page1Gib = (len.toNat + (page1Gib - 1)) / page1Gib := by
    simp only [page1Gib_eq, page2Mib_eq]
    omega
  have tail : ∀ units head, max (units * page2Mib) (head * page1Gib) - head * page1Gib =
      (units - 512 * head) * page2Mib := by
    intro units head
    have gibibytes : head * page1Gib = 512 * head * page2Mib := by
      rw [page1Gib_eq, page2Mib_eq]
      omega
    have left : max units (512 * head) - 512 * head = units - 512 * head := by
      omega
    rw [gibibytes, Nat.mul_max_mul_right, ← Nat.sub_mul, left]
  rw [planHugeSplit, roundUp, if_pos fits, Option.bind_eq_bind, Option.bind_some, roundUp,
    if_pos fitsHead, Option.bind_some, whole]
  simp only [Nat.mul_min_mul_right, tail, tailCount, headCount]
  apply if_congr _ rfl rfl
  rw [Nat.mul_le_mul_right_iff page2Mib_pos, Nat.le_div_iff_mul_le page2Mib_pos]

/-- No cover has fewer pages than the head and the tail together. -/
lemma Covers.count_le {large small : Nat} (covers : Covers len gib mib large small) :
    headCount len gib + tailCount len gib ≤ large + small ∧
      tailCount len gib * page2Mib ≤ mib.toNat := by
  obtain ⟨head, tail, covered⟩ := covers
  simp only [tailCount, headCount, page1Gib_eq, page2Mib_eq] at *
  omega

lemma covers_counts (room : tailCount len gib * page2Mib ≤ mib.toNat) :
    Covers len gib mib (headCount len gib) (tailCount len gib) := by
  refine ⟨?_, room, ?_⟩ <;> simp only [tailCount, headCount, page1Gib_eq, page2Mib_eq] <;> omega

end

/-- A split is planned exactly when the pools can cover the model.  It
consists of whole pages, covers the model within the pools, and no cover has
fewer page entries. -/
theorem planHugeSplit_fewest (len gib mib : UInt64) (bound : len.toNat ≤ 2 ^ 63) :
    ((planHugeSplit len gib mib).isSome ↔ ∃ large small, Covers len gib mib large small) ∧
    ∀ split, planHugeSplit len gib mib = some split →
      split.headBytes = split.headPages * page1Gib ∧
      split.tailBytes = split.tailPages * page2Mib ∧
      Covers len gib mib split.headPages split.tailPages ∧
      ∀ large small, Covers len gib mib large small →
        split.pageEntries ≤ large + small := by
  rw [planHugeSplit_eq bound]
  split_ifs with room
  · refine ⟨iff_of_true rfl ⟨_, _, covers_counts room⟩, ?_⟩
    intro split planned
    cases planned
    rw [HugeSplit.pageEntries, HugeSplit.headPages, HugeSplit.tailPages,
      Nat.mul_div_cancel _ (by simp [page1Gib_eq]), Nat.mul_div_cancel _ page2Mib_pos]
    exact ⟨rfl, rfl, covers_counts room, fun large small covers => covers.count_le.1⟩
  · refine ⟨iff_of_false (by simp) ?_, by simp⟩
    rintro ⟨large, small, covers⟩
    exact room covers.count_le.2

/-- A model of 58.11 GiB and 59 GiB of large pages alone: all 59 are used,
and no fewer pages will do. -/
theorem planHugeSplit_fewest_overshoot :
    planHugeSplit 62394939244 63350767616 0 = some ⟨63350767616, 0⟩ ∧
    Covers 62394939244 63350767616 0 59 0 ∧
    ∀ large small, Covers 62394939244 63350767616 0 large small → 59 ≤ large + small := by
  have planned : planHugeSplit 62394939244 63350767616 0 = some ⟨63350767616, 0⟩ := by
    decide +kernel
  obtain ⟨_, _, covers, fewest⟩ :=
    (planHugeSplit_fewest 62394939244 63350767616 0 (by decide)).2 _ planned
  exact ⟨planned, covers, fewest⟩

end Joshua.Mapping
