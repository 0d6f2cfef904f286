/-
Module: Joshua.Model.HugePages
Purpose: How a model mapping is split into 1 GiB and 2 MiB pages
  (`plan_huge_split` in `mapping.rs`).
Trusted boundary: none
-/
import Joshua.Foundation.Machine

namespace Joshua.Mapping
open Joshua.Foundation

/-- `PAGE_2MIB`. -/
def page2Mib : Nat := 2 * 1024 * 1024
/-- `PAGE_1GIB`. -/
def page1Gib : Nat := 1024 * 1024 * 1024

/-- `HugeSplit`: a head of 1 GiB pages, then a tail of 2 MiB pages. -/
structure HugeSplit where
  headBytes : Nat
  tailBytes : Nat
  deriving DecidableEq

namespace HugeSplit
variable (split : HugeSplit)

def headPages : Nat := split.headBytes / page1Gib
def tailPages : Nat := split.tailBytes / page2Mib
def pageEntries : Nat := split.headPages + split.tailPages

end HugeSplit

/-- `round_up`: nothing where the sum does not fit. -/
def roundUp (n page : Nat) : Option Nat :=
  if n + (page - 1) < u64Limit then some ((n + (page - 1)) / page * page) else none

def planHugeSplit (modelLen avail1Gib avail2Mib : UInt64) : Option HugeSplit := do
  let minimum ← roundUp modelLen.toNat page2Mib
  let fullHead ← roundUp minimum page1Gib
  let headBytes := min fullHead (avail1Gib.toNat / page1Gib * page1Gib)
  let tailCapacity := avail2Mib.toNat / page2Mib * page2Mib
  -- A head of whole gibibytes may reach past the minimum.
  let mapped := max minimum headBytes
  let tailBytes := mapped - headBytes
  if tailBytes ≤ tailCapacity then some ⟨headBytes, tailBytes⟩ else none

end Joshua.Mapping
