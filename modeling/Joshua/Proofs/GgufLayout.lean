/-
Module: Joshua.Proofs.GgufLayout
Purpose: What `validate_layout` guarantees: it accepts the tensors that lie
  inside the data section and apart from each other with the sizes it
  computes, and these are the exact sizes where they fit into 64 bits.
Trusted boundary: none
-/
import Joshua.Proofs.GgufSlices

namespace Joshua.Gguf
open Joshua.Foundation List

/-! ## Exact sizes -/

section
variable (info : TensorInfo)

/-- The product of the dimensions, without a bound. -/
def TensorInfo.exactCount : Nat :=
  info.dims.foldl (fun product dim => product * dim.toNat) 1

/-- The size in bytes without a bound, if the layout is known and the elements
are a whole number of blocks. -/
def TensorInfo.exactSize : Option Nat :=
  match blockLayout info.dtype.toNat with
  | none => none
  | some (block, bytes) =>
    if info.exactCount % block ≠ 0 then none
    else some (info.exactCount / block * bytes)

/-- Neither the number of elements nor the number of bytes wraps. -/
def TensorInfo.Fits : Prop :=
  info.exactCount < u64Limit ∧ ∀ exact, info.exactSize = some exact → exact < u64Limit

lemma elemCount_eq : info.elemCount = info.exactCount % u64Limit := by
  -- along the dimensions, one product is the other modulo the limit
  suffices general : ∀ (dims : List UInt64) (wrapped exact : Nat), wrapped = exact % u64Limit →
      dims.foldl (fun product dim => wrapMul product dim.toNat) wrapped =
        dims.foldl (fun product dim => product * dim.toNat) exact % u64Limit by
    exact general info.dims 1 1 rfl
  intro dims
  induction dims with
  | nil => exact fun _ _ same => same
  | cons dim dims ih =>
    intro wrapped exact same
    refine ih _ _ ?_
    show wrapped * dim.toNat % u64Limit = exact * dim.toNat % u64Limit
    rw [same, Nat.mod_mul_mod]

end

/-- Blocks are powers of two, none is empty, and none has fewer than 9 bytes
for 64 elements. -/
lemma blockLayout_facts {dtype block bytes : Nat}
    (known : blockLayout dtype = some (block, bytes)) :
    block ∣ u64Limit ∧ 0 < block ∧ 0 < bytes ∧ 9 * block ≤ 64 * bytes := by
  rw [blockLayout.eq_def] at known
  split at known
  all_goals try (cases known; exact ⟨by decide, by decide, by decide, by decide⟩)
  rw [rawBlockLayout.eq_def] at known
  split at known
  all_goals cases known
  all_goals exact ⟨by decide, by decide, by decide, by decide⟩

variable {info : TensorInfo} {header : Header} {exact size fileLength : Nat}

/-- The size that is computed for a tensor with an exact size. -/
lemma size_of_exactSize (sized : info.exactSize = some exact) :
    ∃ block bytes, blockLayout info.dtype.toNat = some (block, bytes) ∧
      exact = info.exactCount / block * bytes ∧
      info.exactCount % block = 0 ∧
      info.size = some (wrapMul (info.elemCount / block) bytes) := by
  rw [TensorInfo.exactSize] at sized
  split at sized
  next => cases sized
  next block bytes known =>
    split at sized
    next => cases sized
    next whole =>
      have divides := Classical.not_not.mp whole
      refine ⟨block, bytes, known, (Option.some.inj sized).symm, divides, ?_⟩
      have wrapped : ¬ info.elemCount % block ≠ 0 := by
        rw [elemCount_eq, Nat.mod_mod_of_dvd _ (blockLayout_facts known).1]
        exact whole
      rw [TensorInfo.size, typeSizeBytes, known]
      exact if_neg wrapped

lemma size_of_fits (fits : info.Fits) (sized : info.exactSize = some exact) :
    info.size = some exact := by
  obtain ⟨block, bytes, _, same, _, computed⟩ := size_of_exactSize sized
  rw [computed, elemCount_eq, Nat.mod_eq_of_lt fits.1, wrapMul, ← same,
    Nat.mod_eq_of_lt (fits.2 exact sized)]

/-- A size that wraps comes out too small. -/
lemma size_lt_of_not_fits (sized : info.exactSize = some exact) (wraps : ¬ info.Fits)
    (computed : info.size = some size) : size < exact := by
  obtain ⟨block, bytes, known, same, divides, found⟩ := size_of_exactSize sized
  obtain ⟨_, blockPositive, bytesPositive, _⟩ := blockLayout_facts known
  rw [found, Option.some.injEq, wrapMul, elemCount_eq] at computed
  rw [← computed]
  by_cases few : info.exactCount < u64Limit
  · have large : u64Limit ≤ exact := by
      by_contra small
      refine wraps ⟨few, fun j again => ?_⟩
      rw [sized, Option.some.injEq] at again
      omega
    have limited := Nat.mod_lt (info.exactCount % u64Limit / block * bytes)
      (show 0 < u64Limit by decide)
    omega
  · have fewer : info.exactCount % u64Limit / block < info.exactCount / block := by
      refine Nat.div_lt_div_of_lt_of_dvd (Nat.dvd_of_mod_eq_zero divides) ?_
      have limited := Nat.mod_lt info.exactCount (show 0 < u64Limit by decide)
      omega
    calc info.exactCount % u64Limit / block * bytes % u64Limit
        ≤ info.exactCount % u64Limit / block * bytes := Nat.mod_le _ _
      _ < info.exactCount / block * bytes := Nat.mul_lt_mul_of_pos_right fewer bytesPositive
      _ = exact := same.symm

/-- A tensor whose size wraps has at least `9 * 2 ^ 58` bytes. -/
lemma le_exact_of_not_fits (sized : info.exactSize = some exact) (wraps : ¬ info.Fits) :
    9 * 2 ^ 58 ≤ exact := by
  obtain ⟨block, bytes, known, same, divides, _⟩ := size_of_exactSize sized
  obtain ⟨_, blockPositive, _, dense⟩ := blockLayout_facts known
  have limit : u64Limit = 2 ^ 64 := rfl
  obtain ⟨blocks, count⟩ := Nat.dvd_of_mod_eq_zero divides
  rw [count, Nat.mul_div_cancel_left _ blockPositive] at same
  by_cases few : info.exactCount < u64Limit
  · by_contra small
    refine wraps ⟨few, fun again sizedAgain => ?_⟩
    rw [sized, Option.some.injEq] at sizedAgain
    omega
  · have scaled := Nat.mul_le_mul_left blocks dense
    have elements : blocks * (9 * block) = 9 * info.exactCount := by grind
    have size : blocks * (64 * bytes) = 64 * exact := by grind
    omega

/-! ## Adjacent spans -/

/-- Two spans that share no byte. -/
def Span.Apart (left right : Span) : Prop :=
  left.stop ≤ right.start ∨ right.stop ≤ left.start

/-- The loop compares neighbours, and so any two. -/
lemma checkSpans_eq_ok {dataLength : Nat} {spans : List Span}
    (forward : ∀ span ∈ spans, span.start ≤ span.stop) :
    checkSpans dataLength spans = .ok () ↔ (∀ span ∈ spans, span.stop ≤ dataLength) ∧
      spans.Pairwise fun left right => left.stop ≤ right.start := by
  induction spans with
  | nil => simp [checkSpans]
  | cons here rest ih =>
    rw [forall_mem_cons] at forward
    rw [checkSpans, forall_mem_cons, pairwise_cons]
    split_ifs with past
    · exact iff_of_false (by simp) fun checked => absurd checked.1.1 (not_le.mpr past)
    · cases rest with
      | nil => simp [checkSpans, not_lt.mp past]
      | cons next others =>
        simp only [head?_cons]
        split_ifs with meets
        · refine iff_of_false (by simp) fun checked => ?_
          exact absurd (checked.2.1 next (mem_cons_self ..)) (not_le.mpr meets)
        · rw [ih forward.2]
          refine ⟨fun checked => ⟨⟨not_lt.mp past, checked.1⟩, ?_, checked.2⟩,
            fun checked => ⟨checked.1.2, checked.2.2⟩⟩
          -- the next span starts behind this one, the later ones behind it
          refine forall_mem_cons.mpr ⟨not_lt.mp meets, fun later mem => ?_⟩
          have behind := (pairwise_cons.mp checked.2).1 later mem
          have grows := (forall_mem_cons.mp forward.2).1
          omega

lemma textLe_trans {first second third : Text} (before : textLe first second = true)
    (after : textLe second third = true) : textLe first third = true := by
  induction first generalizing second third with
  | nil => rfl
  | cons letter rest ih =>
    match second, third with
    | _ :: _, _ :: _ => grind [textLe]

lemma textLe_total : ∀ left right, textLe left right = true ∨ textLe right left = true
  | [], _ | _ :: _, [] => by simp [textLe]
  | _ :: left, _ :: right => by grind [textLe, textLe_total left right]

lemma Span.le_iff {left right : Span} : left.le right = true ↔ left.start < right.start ∨
    left.start = right.start ∧ (left.stop < right.stop ∨ left.stop = right.stop ∧
      textLe left.name right.name = true) := by
  simp [Span.le]

lemma Span.le_trans (first second third : Span) (before : first.le second = true)
    (after : second.le third = true) : first.le third = true := by
  rw [Span.le_iff] at before after ⊢
  grind [textLe_trans]

lemma Span.le_total (left right : Span) : (left.le right || right.le left) = true := by
  have names := textLe_total left.name right.name
  rw [Bool.or_eq_true, Span.le_iff, Span.le_iff]
  grind

/-- In the order of the sort, an earlier span that is apart from a later one
ends before it. -/
lemma sorted_apart {spans : List Span} (forward : ∀ span ∈ spans, span.start ≤ span.stop) :
    spans.Pairwise Span.Apart ↔
      (spans.mergeSort Span.le).Pairwise fun left right => left.stop ≤ right.start := by
  have perm := mergeSort_perm spans Span.le
  have sorted := pairwise_mergeSort @Span.le_trans Span.le_total spans
  rw [← perm.pairwise_iff (R := Span.Apart) Or.symm]
  refine ⟨fun apart => ?_, fun before => before.imp fun first => .inl first⟩
  refine (apart.and sorted).imp_of_mem fun left right pair => ?_
  have first := forward _ (perm.mem_iff.mp left)
  have second := forward _ (perm.mem_iff.mp right)
  rw [Span.Apart, Span.le_iff] at pair
  omega

lemma span_start_le {entry : Text × TensorInfo} {found : Span}
    (sized : span entry = some found) : found.start ≤ found.stop := by
  rw [span, Option.map_eq_some_iff] at sized
  obtain ⟨size, _, rfl⟩ := sized
  have limit := entry.2.offset.toNat_lt
  have value : u64Limit = 2 ^ 64 := rfl
  rw [satAdd]
  dsimp only
  omega

/-! ## Separation -/

/-- A tensor of `bytes` bytes lies in the data section and shares no byte with
another, with sizes as `sizeOf` gives them. -/
def Header.Alone (sizeOf : TensorInfo → Option Nat) (header : Header) (fileLength : Nat)
    (name : Text) (info : TensorInfo) (bytes : Nat) : Prop :=
  info.offset.toNat + bytes ≤ fileLength - header.tensorDataOffset ∧
  ∀ other otherInfo otherBytes, (other, otherInfo) ∈ header.tensors →
    other ≠ name → sizeOf otherInfo = some otherBytes →
    info.offset.toNat + bytes ≤ otherInfo.offset.toNat ∨
      otherInfo.offset.toNat + otherBytes ≤ info.offset.toNat

/-- Every tensor with a size lies in the data section, and no two of them
share a byte. -/
def Header.SeparatedBy (sizeOf : TensorInfo → Option Nat) (header : Header)
    (fileLength : Nat) : Prop :=
  ∀ name info bytes, (name, info) ∈ header.tensors → sizeOf info = some bytes →
    header.Alone sizeOf fileLength name info bytes

/-- Every tensor with an exact size lies in the data section, and no two of
them share a byte. -/
def Header.Separated (header : Header) (fileLength : Nat) : Prop :=
  header.SeparatedBy TensorInfo.exactSize fileLength

/-- The file is one of several parts. -/
def Header.IsPart (header : Header) : Prop :=
  ∃ parts, splitCount (OrderedMap.get "split.count".toList header.metadata) = some parts ∧
    1 < parts

/-- Every tensor whose exact size is not the computed one still lies in the
data section, apart from the others. -/
def Header.WrapsApart (header : Header) (fileLength : Nat) : Prop :=
  ∀ name info exact, (name, info) ∈ header.tensors → info.exactSize = some exact →
    info.size ≠ some exact → header.Alone TensorInfo.exactSize fileLength name info exact

/-- Every exact size of the header's tensors fits. -/
def Header.AllFit (header : Header) : Prop :=
  ∀ name info exact, (name, info) ∈ header.tensors → info.exactSize = some exact → info.Fits

lemma tensorDataOffset_pos {file : Bytes} (accepted : readHeader file = .ok header) :
    0 < header.tensorDataOffset := by
  obtain ⟨directory, rest, boundary, read, named, _, rfl⟩ := readHeader_eq_ok.mp accepted
  have consumed := readDirectory_consumes read
  have above := le_roundUp (alignment_ok named).positive (file.length - rest.length)
  dsimp only
  omega

/-- Saturation hides no end: the data section is shorter than the largest
number. -/
lemma span_in_data (shifted : 0 < header.tensorDataOffset)
    (representable : fileLength < u64Limit) (sized : info.size = some size) (name : Text) :
    ∃ found, span (name, info) = some found ∧ found.start = info.offset.toNat ∧
      (found.stop ≤ fileLength - header.tensorDataOffset ↔
        info.offset.toNat + size ≤ fileLength - header.tensorDataOffset) ∧
      (info.offset.toNat + size ≤ fileLength - header.tensorDataOffset →
        found.stop = info.offset.toNat + size) := by
  have limit : u64Limit = 2 ^ 64 := rfl
  refine ⟨⟨info.offset.toNat, satAdd info.offset.toNat size, name⟩, ?_, rfl, ?_, ?_⟩
  · rw [span, sized]
    rfl
  · exact ⟨add_le_of_satAdd_le (by omega), satAdd_le_of_add_le⟩
  · exact fun inside => min_eq_left (by omega)

/-- The spans that are computed are in the data section and apart exactly
where the tensors are. -/
lemma spans_apart_iff (shifted : 0 < header.tensorDataOffset)
    (representable : fileLength < u64Limit) (unique : (OrderedMap.keys header.tensors).Nodup) :
    ((∀ found ∈ header.tensors.filterMap span,
        found.stop ≤ fileLength - header.tensorDataOffset) ∧
      (header.tensors.filterMap span).Pairwise Span.Apart) ↔
    header.SeparatedBy TensorInfo.size fileLength := by
  constructor
  · rintro ⟨bounded, apart⟩ name info size inside sized
    obtain ⟨found, here, start, ends, stop⟩ := span_in_data shifted representable sized name
    have within := ends.mp (bounded found (mem_filterMap.mpr ⟨_, inside, here⟩))
    refine ⟨within, fun other otherInfo otherSize otherInside different otherSized => ?_⟩
    obtain ⟨second, there, otherStart, otherEnds, otherStop⟩ :=
      span_in_data shifted representable otherSized other
    have otherWithin := otherEnds.mp (bounded second (mem_filterMap.mpr ⟨_, otherInside, there⟩))
    rw [pairwise_filterMap] at apart
    have symmetric : Std.Symm fun left right : Text × TensorInfo =>
        ∀ first, span left = some first → ∀ second, span right = some second →
          Span.Apart first second :=
      ⟨fun left right holds first one second two => (holds second two first one).symm⟩
    have unequal : (name, info) ≠ (other, otherInfo) :=
      fun same => different (congrArg Prod.fst same).symm
    have pair := apart.forall inside otherInside unequal found here second there
    rwa [Span.Apart, start, stop within, otherStart, otherStop otherWithin] at pair
  · intro separated
    have placed : ∀ entry ∈ header.tensors, ∀ found, span entry = some found → ∃ size,
        entry.2.size = some size ∧ found.start = entry.2.offset.toNat ∧
        found.stop = entry.2.offset.toNat + size ∧
        found.stop ≤ fileLength - header.tensorDataOffset := by
      rintro ⟨name, info⟩ inside found here
      obtain ⟨size, sized, _⟩ := Option.map_eq_some_iff.mp here
      obtain ⟨_, again, start, ends, stop⟩ := span_in_data shifted representable sized name
      obtain rfl := Option.some.inj (again.symm.trans here)
      have within := (separated name info size inside sized).1
      exact ⟨size, sized, start, stop within, ends.mpr within⟩
    refine ⟨fun found inside => ?_, pairwise_filterMap.mpr ?_⟩
    · obtain ⟨entry, member, here⟩ := mem_filterMap.mp inside
      obtain ⟨_, _, _, _, ends⟩ := placed entry member found here
      exact ends
    · refine (pairwise_map.mp unique).imp_of_mem fun {left right} one two different => ?_
      intro first here second there
      obtain ⟨size, sized, start, stop, _⟩ := placed left one first here
      obtain ⟨otherSize, otherSized, otherStart, otherStop, _⟩ := placed right two second there
      rw [Span.Apart, start, stop, otherStart, otherStop]
      exact (separated left.1 left.2 size one sized).2 right.1 right.2 otherSize two
        (Ne.symm different) otherSized

/-- The layouts that are accepted: whole files whose tensors are separated
with the sizes that are computed. -/
lemma validateLayout_eq_ok (shifted : 0 < header.tensorDataOffset)
    (representable : fileLength < u64Limit) (unique : (OrderedMap.keys header.tensors).Nodup) :
    header.validateLayout fileLength = .ok () ↔
      ¬ header.IsPart ∧ header.SeparatedBy TensorInfo.size fileLength := by
  have forward : ∀ found ∈ header.tensors.filterMap span, found.start ≤ found.stop := by
    intro found inside
    obtain ⟨entry, _, sized⟩ := mem_filterMap.mp inside
    exact span_start_le sized
  have perm := mergeSort_perm (header.tensors.filterMap span) Span.le
  have checked : checkSpans (fileLength - header.tensorDataOffset)
      ((header.tensors.filterMap span).mergeSort Span.le) = .ok () ↔
      header.SeparatedBy TensorInfo.size fileLength := by
    rw [checkSpans_eq_ok fun found inside => forward found (perm.mem_iff.mp inside),
      ← sorted_apart forward, ← spans_apart_iff shifted representable unique]
    simp only [perm.mem_iff]
  rw [Header.validateLayout, ← checked]
  dsimp only
  split
  next parts found =>
    refine iff_of_false (by simp) fun whole => whole.1 ?_
    rw [Option.filter_eq_some_iff] at found
    exact ⟨parts, found.1, by simpa using found.2⟩
  next missing =>
    refine (and_iff_right ?_).symm
    rintro ⟨parts, found, several⟩
    rw [found, Option.filter_some, if_pos (by simpa using several)] at missing
    cases missing

/-- Where the computed sizes separate the tensors, the exact ones do unless a
tensor whose size wraps is in the way. -/
lemma separated_iff_wrapsApart (computed : header.SeparatedBy TensorInfo.size fileLength) :
    header.Separated fileLength ↔ header.WrapsApart fileLength := by
  refine ⟨fun separated name info exact inside sized _ => separated name info exact inside sized,
    fun wrapped name info exact inside sized => ?_⟩
  by_cases same : info.size = some exact
  · obtain ⟨within, others⟩ := computed name info exact inside same
    refine ⟨within, fun other otherInfo otherExact otherInside different otherSized => ?_⟩
    by_cases otherSame : otherInfo.size = some otherExact
    · exact others other otherInfo otherExact otherInside different otherSame
    · exact ((wrapped other otherInfo otherExact otherInside otherSized otherSame).2 name info
        exact inside (Ne.symm different) sized).symm
  · exact wrapped name info exact inside sized same

/-- No file below `9 * 2 ^ 58` bytes has room for a tensor whose size wraps. -/
lemma wrapsApart_iff_allFit (short : fileLength < 9 * 2 ^ 58) :
    header.WrapsApart fileLength ↔ header.AllFit := by
  refine ⟨fun wrapped name info exact inside sized => ?_,
    fun fit name info exact inside sized differs => ?_⟩
  · by_contra wraps
    have large := le_exact_of_not_fits sized wraps
    have within := (wrapped name info exact inside sized
      fun same => (size_lt_of_not_fits sized wraps same).ne rfl).1
    omega
  · exact absurd (size_of_fits (fit name info exact inside sized) sized) differs

/-- For every header that is read and every file length: an accepted layout is
separated exactly if the header is refused as one of several parts, or a span
as computed leaves the data section or meets another, or each tensor whose
size wraps lies in the data section apart from the others.  In a file below
`9 * 2 ^ 58` bytes the last says that no size wraps. -/
theorem layout_sound_iff {file : List UInt8} {header : Header} {fileLength : Nat}
    (accepted : readHeader file = .ok header) (representable : fileLength < u64Limit) :
    ((header.validateLayout fileLength = .ok () → header.Separated fileLength) ↔
      header.IsPart ∨ ¬ header.SeparatedBy TensorInfo.size fileLength ∨
        header.WrapsApart fileLength) ∧
    (fileLength < 9 * 2 ^ 58 → (header.WrapsApart fileLength ↔ header.AllFit)) := by
  have passes := validateLayout_eq_ok (tensorDataOffset_pos accepted) representable
    (readHeader_tidy accepted).tensors_unique
  refine ⟨?_, wrapsApart_iff_allFit⟩
  rw [passes, and_imp, or_iff_not_imp_left, or_iff_not_imp_left, Classical.not_not]
  refine forall_congr' fun whole => forall_congr' fun computed => ?_
  exact separated_iff_wrapsApart computed

set_option maxRecDepth 2000 in
/-- The small file is accepted, and its two tensors are separated. -/
theorem smallFile_layout_sound :
    smallHeader.validateLayout 132 = .ok () ∧ smallHeader.Separated 132 := by
  have read : readHeader smallFile = .ok smallHeader := rfl
  have valid : smallHeader.validateLayout 132 = .ok () := by
    have spans : smallHeader.tensors.filterMap span = [⟨0, 4, ['w']⟩, ⟨32, 36, ['v']⟩] := rfl
    rw [Header.validateLayout, spans, mergeSort_of_pairwise (by decide)]
    rfl
  have fit : smallHeader.AllFit := by
    intro name info exact inside sized
    rw [smallHeader] at inside
    rcases mem_pair.mp inside with same | same <;> cases same
    all_goals
      refine ⟨by decide, fun again sizedAgain => ?_⟩
      rw [← Option.some.inj sizedAgain]
      decide
  obtain ⟨sound, wraps⟩ := layout_sound_iff read (show 132 < u64Limit by decide)
  exact ⟨valid, sound.mpr (.inr (.inr ((wraps (by decide)).mpr fit))) valid⟩

/-- The file of 2 ^ 32 rows of 2 ^ 32 floats: a header and no data. -/
def squareFile : List UInt8 :=
  [0x47, 0x47, 0x55, 0x46, 3, 0, 0, 0, 1, 0, 0, 0, 0, 0, 0, 0] ++
    [0, 0, 0, 0, 0, 0, 0, 0, 1, 0, 0, 0, 0, 0, 0, 0, 0x77] ++
    [2, 0, 0, 0, 0, 0, 0, 0, 1, 0, 0, 0, 0, 0, 0, 0, 1, 0, 0, 0] ++
    [0, 0, 0, 0, 0, 0, 0, 0, 0, 0, 0, 0]

def squareHeader : Header where
  version := 3
  metadata := []
  tensors := [(['w'], { dtype := 0, dims := [4294967296, 4294967296], offset := 0 })]
  tensorDataOffset := 96

theorem squareFile_accepted_unseparated : readHeader squareFile = .ok squareHeader ∧
      squareHeader.validateLayout 96 = .ok () ∧
      ¬ squareHeader.Separated 96 := by
  refine ⟨rfl, ?_, ?_⟩
  · have sorted : (squareHeader.tensors.filterMap span).mergeSort Span.le = [⟨0, 0, ['w']⟩] :=
      mergeSort_singleton _
    rw [Header.validateLayout, sorted]
    rfl
  · intro separated
    have inside := (separated ['w'] _ (2 ^ 66) (mem_singleton.mpr rfl) rfl).1
    exact absurd inside (by decide)

end Joshua.Gguf
