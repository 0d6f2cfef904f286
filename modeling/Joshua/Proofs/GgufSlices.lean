/-
Module: Joshua.Proofs.GgufSlices
Purpose: What a GGUF header satisfies once it has been read, that the
  encodings of a stage slice are read back as what was written, and that the
  file `subset_layout` describes is accepted again, with the metadata of the
  source and the named tensors, whose bytes are those of the source.
Trusted boundary: a file is shorter than `2 ^ 63` bytes
-/
import Joshua.Model.Gguf

namespace Joshua.Gguf

section
open Joshua.Foundation Decoder
open Ensures (orElse pure throw trivial)

/-! ## What is read -/

/-- A value that a reader with this many levels can return: its strings do not
end with a NUL, its arrays are homogeneous and not too long. -/
def Readable : Nat → Value → Prop
  | 0, _ => False
  | _ + 1, .string text => Utf8.Unterminated text
  | levels + 1, .array items =>
    items.length ≤ maxArrayElements ∧ (∃ type, ∀ item ∈ items, metadataTypeId item = type) ∧
      ∀ item ∈ items, Readable levels item
  | _ + 1, _ => True

lemma string_ensures (version : Nat) : Ensures (Rdr.string version) Utf8.Unterminated := by
  refine (trivial _).bind ?_
  intro size _
  refine orElse ?_
  intro _
  refine (trivial _).bind ?_
  intro bytes _
  exact pure (Utf8.lossy_trimZeros_unterminated bytes)

/-- The reader returns readable values of the type it is asked for. -/
lemma value_ensures (version levels type : Nat) :
    Ensures (Rdr.value version levels type) fun value =>
      Readable levels value ∧ metadataTypeId value = type := by
  induction levels generalizing type with
  | zero => exact throw _
  | succ levels ih =>
    have scalar : ∀ {width : Nat} {build : BitVec width → Value},
        (∀ bits, Readable (levels + 1) (build bits) ∧ metadataTypeId (build bits) = type) →
        Ensures (do return build (← Rdr.scalar width)) fun value =>
          Readable (levels + 1) value ∧ metadataTypeId value = type := by
      intro width build holds
      refine (trivial _).bind ?_
      intro bits _
      exact pure (holds bits)
    rw [Rdr.value.eq_def]
    dsimp only
    split
    all_goals try exact scalar fun _ => ⟨trivial, rfl⟩
    next =>
      refine (string_ensures version).bind ?_
      intro text clean
      exact pure ⟨clean, rfl⟩
    next =>
      refine (trivial _).bind ?_
      intro element _
      refine (trivial _).bind ?_
      intro count _
      refine orElse ?_
      intro few
      refine ((ih element).many count).bind ?_
      rintro items ⟨length, all⟩
      refine pure ⟨⟨?_, ⟨element, ?_⟩, ?_⟩, rfl⟩
      · omega
      · exact fun item inside => (all item inside).2
      · exact fun item inside => (all item inside).1
    next => exact throw _

lemma entry_ensures (version : Nat) : Ensures (Rdr.entry version) fun entry =>
      Utf8.Unterminated entry.1 ∧ Readable (maxValueDepth + 1) entry.2 := by
  refine (string_ensures version).bind ?_
  intro key clean
  refine (trivial _).bind ?_
  intro type _
  refine (value_ensures version _ type).bind ?_
  intro value known
  exact pure ⟨clean, known.1⟩

lemma tensor_ensures (version : Nat) : Ensures (Rdr.tensor version) fun entry =>
      Utf8.Unterminated entry.1 ∧ entry.2.dims.length ≤ 8 := by
  refine (string_ensures version).bind ?_
  intro name clean
  refine (trivial _).bind ?_
  intro count _
  refine orElse ?_
  intro few
  refine ((trivial _).many count).bind ?_
  rintro dims ⟨length, _⟩
  refine (trivial _).bind ?_
  intro dtype _
  refine (trivial _).bind ?_
  intro offset _
  refine pure ⟨clean, ?_⟩
  rw [List.length_reverse, List.length_map, length]
  exact not_lt.mp few

/-- What holds of the metadata and the tensors of a header that was read. -/
structure Tidy (metadata : Metadata) (tensors : List (Text × TensorInfo)) : Prop where
  metadata_unique : (OrderedMap.keys metadata).Nodup
  metadata_few : metadata.length ≤ maxCount
  metadata_readable : ∀ entry ∈ metadata,
    Utf8.Unterminated entry.1 ∧ Readable (maxValueDepth + 1) entry.2
  tensors_unique : (OrderedMap.keys tensors).Nodup
  tensors_few : tensors.length ≤ maxCount
  tensors_readable : ∀ entry ∈ tensors, Utf8.Unterminated entry.1 ∧ entry.2.dims.length ≤ 8

lemma readDirectory_ensures : Ensures readDirectory fun directory =>
      Tidy directory.metadata directory.tensors := by
  refine (trivial _).bind ?_
  intro start _
  refine orElse ?_
  intro _
  refine (trivial _).bind ?_
  intro version _
  refine orElse ?_
  intro _
  refine (trivial _).bind ?_
  intro tensorCount _
  refine (trivial _).bind ?_
  intro kvCount _
  refine orElse ?_
  intro counts
  refine ((entry_ensures version).many kvCount).bind ?_
  rintro metadata ⟨metadataLength, metadataAll⟩
  refine ((tensor_ensures version).many tensorCount).bind ?_
  rintro tensors ⟨tensorsLength, tensorsAll⟩
  have metadataFew : (OrderedMap.collect metadata).length ≤ maxCount := by
    have fewer := OrderedMap.length_collect_le metadata
    omega
  have tensorsFew : (OrderedMap.collect tensors).length ≤ maxCount := by
    have fewer := OrderedMap.length_collect_le tensors
    omega
  exact pure {
    metadata_unique := OrderedMap.collect_nodup metadata
    metadata_few := metadataFew
    metadata_readable := fun entry inside =>
      metadataAll entry (OrderedMap.mem_of_mem_collect inside)
    tensors_unique := OrderedMap.collect_nodup tensors
    tensors_few := tensorsFew
    tensors_readable := fun entry inside =>
      tensorsAll entry (OrderedMap.mem_of_mem_collect inside) }

/-! ## What is consumed -/

lemma len_drops (version : Nat) : Drops (Rdr.len version) := by
  rw [Rdr.len]
  split
  · exact Drops.number _ _
  · exact Drops.number _ _

lemma string_drops (version : Nat) : Drops (Rdr.string version) :=
  (len_drops version).bind fun _ => Drops.orElse ((Drops.take _ _).bind fun _ => Drops.pure _)

lemma value_drops (version levels type : Nat) : Drops (Rdr.value version levels type) := by
  induction levels generalizing type with
  | zero => exact Drops.throw _
  | succ levels ih =>
    have scalar : ∀ (width : Nat) (build : BitVec width → Value),
        Drops (do return build (← Rdr.scalar width)) := fun width build =>
      ((Drops.number _ _).bind fun _ => Drops.pure _).bind fun _ => Drops.pure _
    rw [Rdr.value.eq_def]
    dsimp only
    split
    all_goals try exact scalar _ _
    next => exact (string_drops version).bind fun _ => Drops.pure _
    next =>
      refine (Drops.number _ _).bind fun element => ?_
      refine (len_drops version).bind fun count => Drops.orElse ?_
      exact ((ih element).many count).bind fun _ => Drops.pure _
    next => exact Drops.throw _

lemma entry_drops (version : Nat) : Drops (Rdr.entry version) :=
  (string_drops version).bind fun _ => (Drops.number _ _).bind fun type =>
    (value_drops version _ type).bind fun _ => Drops.pure _

lemma tensor_drops (version : Nat) : Drops (Rdr.tensor version) :=
  (string_drops version).bind fun _ => (Drops.number _ _).bind fun count =>
    Drops.orElse (((len_drops version).many count).bind fun _ =>
      (Drops.number _ _).bind fun _ => (Drops.number _ _).bind fun _ => Drops.pure _)

variable {file : Bytes}

/-- The header takes at least the four bytes of its magic number. -/
lemma readDirectory_consumes {rest : Bytes} {directory : Directory}
    (read : readDirectory file = .ok (directory, rest)) : rest.length + 4 ≤ file.length := by
  obtain ⟨start, middle, first, others⟩ := Decoder.bind_eq_ok.mp read
  have four : middle.length + 4 ≤ file.length := by
    obtain ⟨bytes, left, taken, returned⟩ := Decoder.bind_eq_ok.mp first
    rw [← (pure_eq_ok.mp returned).2]
    rw [take] at taken
    split at taken
    next enough =>
      obtain ⟨_, rfl⟩ := Prod.mk.inj (Except.ok.inj taken)
      rw [List.length_drop]
      omega
    next => cases taken
  have left : rest <:+ middle := by
    refine Drops.orElse ?_ _ _ _ others
    refine (Drops.number _ _).bind fun version => Drops.orElse ?_
    refine (len_drops version).bind fun tensorCount => ?_
    refine (len_drops version).bind fun kvCount => Drops.orElse ?_
    refine ((entry_drops version).many kvCount).bind fun _ => ?_
    exact ((tensor_drops version).many tensorCount).bind fun _ => Drops.pure _
  have shorter := left.length_le
  omega

/-! ## Accepted headers -/

lemma misaligned_eq_none {align : Nat} {tensors : List (Text × TensorInfo)} :
    misaligned align tensors = none ↔ ∀ entry ∈ tensors, align ∣ entry.2.offset.toNat := by
  rw [misaligned, minByKey?_eq_none, List.filter_eq_nil_iff]
  refine forall₂_congr fun entry _ => ?_
  rw [decide_eq_true_eq, Classical.not_not, Nat.dvd_iff_mod_eq_zero]

/-- What a header was read from. -/
lemma readHeader_eq_ok {header : Header} : readHeader file = .ok header ↔ ∃ directory rest align,
        readDirectory file = .ok (directory, rest) ∧
        alignment directory.metadata = .ok align ∧
        (∀ entry ∈ directory.tensors, align ∣ entry.2.offset.toNat) ∧
        header = {
          version := directory.version
          metadata := directory.metadata
          tensors := directory.tensors
          tensorDataOffset := roundUp (file.length - rest.length) align } := by
  refine bind_eq_ok.trans ⟨?_, ?_⟩
  · rintro ⟨⟨directory, rest⟩, read, returned⟩
    obtain ⟨align, named, returned⟩ := bind_eq_ok.mp returned
    cases off : misaligned align directory.tensors with
    | some entry =>
      rw [off] at returned
      cases returned
    | none =>
      rw [off] at returned
      exact ⟨directory, rest, align, read, named,
        misaligned_eq_none.mp off, (Except.ok.inj returned).symm⟩
  · rintro ⟨directory, rest, align, read, named, aligned, rfl⟩
    refine ⟨_, read, bind_eq_ok.mpr ⟨align, named, ?_⟩⟩
    rw [misaligned_eq_none.mpr aligned]
    rfl

lemma readHeader_tidy {header : Header} (accepted : readHeader file = .ok header) :
    Tidy header.metadata header.tensors := by
  obtain ⟨directory, rest, _, read, _, _, rfl⟩ := readHeader_eq_ok.mp accepted
  exact readDirectory_ensures _ _ _ read

/-! ## What is written -/

mutual

/-- The strings of a value, at any depth. -/
def Value.strings : Value → List Text
  | .string text => [text]
  | .array items => itemStrings items
  | _ => []

def itemStrings : List Value → List Text
  | [] => []
  | item :: items => item.strings ++ itemStrings items

end

lemma itemStrings_eq (items : List Value) : itemStrings items = items.flatMap Value.strings := by
  induction items with
  | nil => rfl
  | cons item items ih => rw [itemStrings, ih, List.flatMap_cons]

lemma writeItems_eq (items : List Value) : writeItems items = items.flatMap writeMetadataValue := by
  induction items with
  | nil => rfl
  | cons item items ih => rw [writeItems, ih, List.flatMap_cons]

/-- A string that the reader's cap admits. -/
def Short (text : Text) : Prop :=
  (Utf8.encode text).length ≤ maxStringLength

lemma scalar_reads {width : Nat} (bits : BitVec width) (whole : 256 ^ (width / 8) = 2 ^ width) :
    Reads (Rdr.scalar width) (scalarBytes bits) bits := by
  have fits : bits.toNat < 256 ^ (width / 8) := by
    rw [whole]
    exact bits.isLt
  refine (Reads.number HeaderError.endOfFile fits).bind_pure_eq ?_
  rw [BitVec.ofNat_toNat, BitVec.setWidth_eq]

lemma len_reads {length : Nat} (fits : length < 2 ^ 64) :
    Reads (Rdr.len 3) (leBytes 8 length) length :=
  Reads.number HeaderError.endOfFile fits

lemma u32_reads {number : Nat} (fits : number < 2 ^ 32) : Reads Rdr.u32 (leBytes 4 number) number :=
  Reads.number HeaderError.endOfFile fits

/-- A string that does not end with a NUL is read back. -/
lemma string_reads {text : Text} (clean : Utf8.Unterminated text)
    (short : Short text) : Reads (Rdr.string 3) (stringBytes text) text := by
  have bound : maxStringLength < 2 ^ 64 := by decide
  refine (len_reads (lt_of_le_of_lt short bound)).bind ?_
  refine Reads.orElse (not_lt.mpr short) ?_
  refine (Reads.take _ (Utf8.encode text)).bind_pure_eq ?_
  rw [Utf8.trimZeros_encode clean, Utf8.lossy_encode]

lemma metadataTypeId_lt (value : Value) : metadataTypeId value < 2 ^ 32 := by
  cases value <;> exact Nat.lt_of_sub_eq_succ rfl

/-- A readable value with short strings is read back. -/
lemma value_reads {levels : Nat} {value : Value} (readable : Readable levels value)
    (short : ∀ text ∈ value.strings, Short text) :
    Reads (Rdr.value 3 levels (metadataTypeId value)) (writeMetadataValue value) value := by
  induction levels generalizing value with
  | zero => exact readable.elim
  | succ levels ih =>
    cases value with
    | string text =>
      exact (string_reads readable (short text (List.mem_singleton.mpr rfl))).bind_pure
    | array items =>
      obtain ⟨few, ⟨type, same⟩, all⟩ := readable
      rw [writeMetadataValue, writeItems_eq]
      have element : items.head?.elim 0 metadataTypeId < 2 ^ 32 := by
        cases items with
        | nil => decide
        | cons item rest => exact metadataTypeId_lt item
      have bound : maxArrayElements < 2 ^ 64 := by decide
      refine (u32_reads element).bind ?_
      refine (len_reads (lt_of_le_of_lt few bound)).bind ?_
      refine Reads.orElse (not_lt.mpr few) ?_
      refine Reads.bind_pure (Reads.many ?_)
      intro item inside
      have first : items.head?.elim 0 metadataTypeId = metadataTypeId item := by
        cases items with
        | nil => cases inside
        | cons head rest =>
          exact (same head List.mem_cons_self).trans (same item inside).symm
      rw [first]
      refine ih (all item inside) ?_
      intro text found
      refine short text ?_
      rw [Value.strings, itemStrings_eq]
      exact List.mem_flatMap.mpr ⟨item, inside, found⟩
    | bool value =>
      cases value with
      | true | false => exact fun rest => rfl
    | u8 bits | i8 bits | u16 bits | i16 bits | u32 bits | i32 bits
    | f32 bits | u64 bits | i64 bits | f64 bits => exact (scalar_reads bits rfl).bind_pure

/-- An entry of the metadata is read back. -/
lemma entry_reads {entry : Text × Value} (clean : Utf8.Unterminated entry.1)
    (readable : Readable (maxValueDepth + 1) entry.2) (shortKey : Short entry.1)
    (short : ∀ text ∈ entry.2.strings, Short text) :
    Reads (Rdr.entry 3) (entryBytes entry) entry := by
  refine (string_reads clean shortKey).bind ?_
  refine (u32_reads (metadataTypeId_lt entry.2)).bind ?_
  exact (value_reads readable short).bind_pure

/-- The description of a tensor in the new file. -/
def Placement.placed (placement : Placement) : Text × TensorInfo :=
  (placement.name, { placement.info with offset := UInt64.ofNat placement.offset })

/-- What is written for a tensor is read back. -/
lemma tensor_reads {place : Placement} (clean : Utf8.Unterminated place.name)
    (short : Short place.name) (few : place.info.dims.length ≤ 8)
    (fits : place.offset < u64Limit) :
    Reads (Rdr.tensor 3) place.bytes place.placed := by
  have each : ∀ value ∈ place.info.dims.reverse.map UInt64.toNat,
      Reads (Rdr.len 3) (leBytes 8 value) value :=
    List.forall_mem_map.mpr fun dim _ => len_reads dim.toNat_lt
  have dims := Reads.many each
  rw [List.length_map, List.length_reverse, List.flatMap_map] at dims
  have small : place.info.dims.length < 2 ^ 32 := lt_of_le_of_lt few (by decide)
  refine (string_reads clean short).bind ?_
  refine (u32_reads small).bind ?_
  refine Reads.orElse (not_lt.mpr few) ?_
  refine dims.bind ?_
  refine (u32_reads place.info.dtype.toNat_lt).bind ?_
  refine (len_reads fits).bind_pure_eq ?_
  have back : ((place.info.dims.reverse.map UInt64.toNat).map
      UInt64.ofNat).reverse = place.info.dims := by
    rw [List.map_map, ← List.map_reverse, List.reverse_reverse]
    conv_rhs => rw [← List.map_id place.info.dims]
    exact List.map_congr_left fun dim _ => UInt64.ofNat_toNat
  rw [back, UInt32.ofNat_toNat]
  rfl

end

open Joshua.Foundation Decoder List
open OrderedMap (collect_of_nodup get get_congr keys mem_keys)

/-! ## Alignments -/

lemma namedAlignment_lt (found : Option Value) : namedAlignment found < 2 ^ 32 := by
  have default_lt : defaultAlignment < 2 ^ 32 := by decide
  have narrow : ∀ {width : Nat} (bits : BitVec width), width ≤ 32 →
      bits.toNat < 2 ^ 32 := fun bits small =>
    lt_of_lt_of_le bits.isLt (Nat.pow_le_pow_right (by decide) small)
  rw [namedAlignment.eq_def]
  split
  all_goals try split_ifs
  all_goals first | exact default_lt | exact narrow _ (by decide)

/-- An alignment is a power of two below `2 ^ 32`. -/
structure IsAlignment (boundary : Nat) : Prop where
  positive : 0 < boundary
  small : boundary < 2 ^ 32
  dvd : boundary ∣ u64Limit

variable {align : Nat} {metadata : Metadata}

lemma alignment_ok (named : alignment metadata = .ok align) : IsAlignment align := by
  rw [alignment] at named
  split_ifs at named with good
  rw [Except.ok.injEq] at named
  rw [named, not_or, Classical.not_not] at good
  obtain ⟨nonzero, power⟩ := good
  have small : align < 2 ^ 32 := by
    rw [← named]
    exact namedAlignment_lt _
  have exponent : align.log2 ≤ 64 := by
    have less := (Nat.log2_lt nonzero).mpr small
    omega
  refine ⟨Nat.pos_of_ne_zero nonzero, small, ?_⟩
  rw [← power]
  exact Nat.pow_dvd_pow 2 exponent

lemma le_roundUp (pos : 0 < align) (length : Nat) : length ≤ roundUp length align := by
  have whole := Nat.div_add_mod (length + align - 1) align
  have small := Nat.mod_lt (length + align - 1) pos
  rw [mul_comm] at whole
  rw [roundUp]
  omega

lemma roundUp_lt (pos : 0 < align) (length : Nat) : roundUp length align < length + align := by
  have below := Nat.div_mul_le_self (length + align - 1) align
  rw [roundUp]
  omega

lemma dvd_wrapAdd {left right : Nat} (dvd : align ∣ u64Limit) (first : align ∣ left)
    (second : align ∣ right) : align ∣ wrapAdd left right :=
  (Nat.dvd_mod_iff dvd).mpr (Nat.dvd_add first second)

lemma dvd_paddedSize (dvd : align ∣ u64Limit) (size : Nat) : align ∣ paddedSize align size :=
  (Nat.dvd_mod_iff dvd).mpr (Nat.dvd_mul_left _ _)

lemma wrapAdd_lt (left right : Nat) : wrapAdd left right < u64Limit :=
  Nat.mod_lt _ (by decide)

/-- The padded size of a tensor that is in a file. -/
lemma paddedSize_eq {size : Nat} (good : IsAlignment align) (fits : size < 2 ^ 63) :
    paddedSize align size = roundUp size align := by
  have above := roundUp_lt good.positive size
  have small := good.small
  have limit : u64Limit = 2 ^ 64 := rfl
  exact Nat.mod_eq_of_lt (by rw [← roundUp]; omega)

/-! ## The pass over the names -/

variable {header : Header} {names : List Text} {placed : List Placement}

section
variable {align offset : Nat} {name : Text}

/-- What one round of the loop does. -/
lemma placements_cons : placements header align offset (name :: names) = .ok placed ↔
      ∃ info size rest, get name header.tensors = some info ∧ info.size = some size ∧
        placements header align (wrapAdd offset (paddedSize align size)) names = .ok rest ∧
        placed = { name, info, size, offset } :: rest := by
  rw [placements]
  cases found : get name header.tensors with
  | none => simp
  | some info =>
    cases known : info.size with
    | none => simp [known]
    | some size => simp [known, map_eq_ok, @eq_comm _ placed]

/-- Tensors of known size can be placed. -/
lemma placements_ok
    (known : ∀ name ∈ names, ∃ info size,
      get name header.tensors = some info ∧ info.size = some size) :
    ∃ placed, placements header align offset names = .ok placed := by
  induction names generalizing offset with
  | nil => exact ⟨[], rfl⟩
  | cons name names ih =>
    obtain ⟨info, size, found, sized⟩ := known name mem_cons_self
    obtain ⟨rest, laid⟩ : ∃ rest, placements header align
        (wrapAdd offset (paddedSize align size)) names = .ok rest :=
      ih fun j mem => known j (mem_cons_of_mem _ mem)
    exact ⟨_, placements_cons.mpr ⟨info, size, rest, found, sized, laid, rfl⟩⟩

/-- What is known of a placed tensor. -/
structure Placed (header : Header) (boundary : Nat) (placement : Placement) : Prop where
  found : get placement.name header.tensors = some placement.info
  sized : placement.info.size = some placement.size
  fits : placement.offset < u64Limit
  aligned : boundary ∣ placement.offset

lemma placements_placed (dvd : align ∣ u64Limit) (fits : offset < u64Limit)
    (aligned : align ∣ offset) (laid : placements header align offset names = .ok placed) :
    placed.map Placement.name = names ∧ ∀ place ∈ placed, Placed header align place := by
  induction names generalizing offset placed with
  | nil =>
    rw [← Except.ok.inj laid]
    exact ⟨rfl, nofun⟩
  | cons name names ih =>
    obtain ⟨info, size, rest, found, sized, others, rfl⟩ := placements_cons.mp laid
    obtain ⟨order, all⟩ :=
      ih (wrapAdd_lt _ _) (dvd_wrapAdd dvd aligned (dvd_paddedSize dvd size)) others
    exact ⟨by rw [map_cons, order], forall_mem_cons.mpr ⟨⟨found, sized, fits, aligned⟩, all⟩⟩

/-- The sum of the padded sizes. -/
def paddedTotal (boundary : Nat) (placed : List Placement) : Nat :=
  (placed.map fun placement => paddedSize boundary placement.size).sum

/-- A tensor is placed behind those before it. -/
lemma placements_offset {before after : List Placement}
    {place : Placement} (fits : offset < u64Limit)
    (laid : placements header align offset names = .ok (before ++ place :: after)) :
    place.offset = (offset + paddedTotal align before) % u64Limit := by
  induction before generalizing offset names with
  | nil =>
    cases names with
    | nil => cases laid
    | cons name names =>
      obtain ⟨info, size, rest, _, _, _, same⟩ := placements_cons.mp laid
      obtain ⟨rfl, _⟩ := List.cons.inj same
      exact (Nat.mod_eq_of_lt fits).symm
  | cons first before ih =>
    cases names with
    | nil => cases laid
    | cons name names =>
      obtain ⟨info, size, rest, _, _, others, same⟩ := placements_cons.mp laid
      obtain ⟨rfl, rfl⟩ := List.cons.inj same
      rw [ih (wrapAdd_lt _ _) others, wrapAdd, Nat.mod_add_mod, paddedTotal, paddedTotal, map_cons,
        sum_cons, add_assoc]

end

/-! ## The new header -/

/-- The strings of a header: its keys, its values and its tensors' names. -/
def Header.strings (header : Header) : List Text :=
  keys header.metadata ++ (header.metadata.flatMap (fun entry => entry.2.strings) ++
      keys header.tensors)

section
variable {align : Nat}

lemma sortedMetadata_perm (metadata : Metadata) : (sortedMetadata metadata).Perm metadata :=
  mergeSort_perm metadata _

/-- Sorting the entries does not change what is found under a key. -/
lemma get_sortedMetadata (unique : (keys metadata).Nodup) (key : Text) :
    get key (sortedMetadata metadata) = get key metadata := by
  have same := sortedMetadata_perm metadata
  refine get_congr ?_ unique fun value => same.mem_iff
  exact ((same.map Prod.fst).nodup_iff).mpr unique

/-- The written header without the padding behind it. -/
def headerBytes (header : Header) (placed : List Placement) : List UInt8 :=
  leBytes 4 magic ++ (leBytes 4 3 ++ (leBytes 8 placed.length ++
    (leBytes 8 header.metadata.length ++ ((sortedMetadata header.metadata).flatMap entryBytes ++
        placed.flatMap Placement.bytes))))

/-- What `subset_layout` returns. -/
def layoutOf (header : Header) (boundary : Nat) (placed : List Placement) :
    List UInt8 × List SourceRange :=
  (headerBytes header placed ++
    List.replicate (roundUp (headerBytes header placed).length boundary -
      (headerBytes header placed).length) 0,
    placed.map (Placement.range header.tensorDataOffset boundary))

lemma subsetLayout_eq_ok (named : alignment header.metadata = .ok align)
    (laid : placements header align 0 names = .ok placed)
    (order : placed.map Placement.name = names) :
    subsetLayout header names = .ok (layoutOf header align placed) := by
  have length : names.length = placed.length := by rw [← order, length_map]
  rw [subsetLayout, named]
  simp only [bind, Except.bind, laid, length]
  rfl

section
variable (tidy : Tidy header.metadata header.tensors) (short : ∀ text ∈ header.strings, Short text)
include tidy short

/-- The written header is read as the sorted metadata and the placed
tensors. -/
lemma headerBytes_reads (nodup : (placed.map Placement.name).Nodup)
    (all : ∀ place ∈ placed, Placed header align place) :
    Reads readDirectory (headerBytes header placed) {
      version := 3
      metadata := sortedMetadata header.metadata
      tensors := placed.map Placement.placed } := by
  have perm := sortedMetadata_perm header.metadata
  have bound : maxCount < 2 ^ 64 := by decide
  have inside : ∀ place ∈ placed, (place.name, place.info) ∈ header.tensors :=
    fun place mem => OrderedMap.mem_of_get (all place mem).found
  have few : placed.length ≤ maxCount := by
    have names : placed.map Placement.name ⊆ keys header.tensors :=
      forall_mem_map.mpr fun place here => mem_keys.mpr ⟨_, inside place here⟩
    have fewer := (subperm_of_subset nodup names).length_le
    rw [length_map, OrderedMap.keys, length_map] at fewer
    exact le_trans fewer tidy.tensors_few
  have entries : Reads (many header.metadata.length (Rdr.entry 3))
      ((sortedMetadata header.metadata).flatMap entryBytes)
      (sortedMetadata header.metadata) := by
    rw [← perm.length_eq]
    refine Reads.many ?_
    intro entry mem
    have here := perm.mem_iff.mp mem
    obtain ⟨clean, readable⟩ := tidy.metadata_readable entry here
    refine entry_reads clean readable (short _ ?_) fun text found => short _ ?_
    · exact mem_append_left _ (mem_map.mpr ⟨entry, here, rfl⟩)
    · refine mem_append_right _ (mem_append_left _ ?_)
      exact mem_flatMap.mpr ⟨entry, here, found⟩
  have tensors : Reads (many placed.length (Rdr.tensor 3))
      (placed.flatMap Placement.bytes) (placed.map Placement.placed) := by
    refine Reads.many_map ?_
    intro place mem
    have here := inside place mem
    obtain ⟨clean, dims⟩ := tidy.tensors_readable _ here
    refine tensor_reads clean (short _ ?_) dims (all place mem).fits
    refine mem_append_right _ (mem_append_right _ ?_)
    exact mem_keys.mpr ⟨_, here⟩
  refine (u32_reads (by decide)).bind ?_
  refine Reads.orElse (by decide) ?_
  refine (u32_reads (by decide)).bind ?_
  refine Reads.orElse (by decide) ?_
  refine (len_reads (lt_of_le_of_lt few bound)).bind ?_
  refine (len_reads (lt_of_le_of_lt tidy.metadata_few bound)).bind ?_
  have counts : ¬ (maxCount < placed.length ∨ maxCount < header.metadata.length) := by
    have fewEntries := tidy.metadata_few
    omega
  refine Reads.orElse counts ?_
  refine entries.bind (tensors.bind_pure_eq ?_)
  rw [collect_of_nodup, collect_of_nodup]
  · rw [OrderedMap.keys, map_map]
    exact nodup
  · exact ((perm.map Prod.fst).nodup_iff).mpr tidy.metadata_unique

/-- The new file is accepted, whatever stands behind its header. -/
lemma subset_accepted (named : alignment header.metadata = .ok align)
    (nodup : (placed.map Placement.name).Nodup)
    (all : ∀ place ∈ placed, Placed header align place) (data : Bytes) :
    readHeader ((layoutOf header align placed).1 ++ data) = .ok {
      version := 3
      metadata := sortedMetadata header.metadata
      tensors := placed.map Placement.placed
      tensorDataOffset := (layoutOf header align placed).1.length } := by
  have positive := (alignment_ok named).positive
  rw [layoutOf, append_assoc, readHeader_eq_ok]
  refine ⟨_, _, align, headerBytes_reads tidy short nodup all _, ?_, ?_, ?_⟩
  · rw [alignment] at named ⊢
    rw [get_sortedMetadata tidy.metadata_unique]
    exact named
  · refine forall_mem_map.mpr fun place mem => ?_
    have known := all place mem
    rw [Placement.placed, UInt64.toNat_ofNat_of_lt' known.fits]
    exact known.aligned
  · have above := le_roundUp positive (headerBytes header placed).length
    congr 1
    rw [length_append, length_replicate, length_append, Nat.add_sub_cancel_right]
    omega

end

/-! ## The bytes -/

/-- A file as the operating system gives one. -/
def IsFile (file : List UInt8) : Prop :=
  file.length < 2 ^ 63

variable {file bytes : Bytes}

/-- Where the bytes of a tensor are read. -/
lemma readRawBytes_eq_ok {start : Nat} {name : Text} {info : TensorInfo} :
    readRawBytes file start name info = .ok bytes ↔ ∃ size, info.size = some size ∧
        size ≤ (file.drop (wrapAdd start info.offset.toNat)).length ∧
        (file.drop (wrapAdd start info.offset.toNat)).take size = bytes := by
  rw [readRawBytes]
  cases sized : info.size with
  | none => simp
  | some size =>
    simp only [Option.some.injEq, exists_eq_left']
    split_ifs with enough <;> simp only [enough, true_and, false_and, Except.ok.injEq]

variable {place : Placement}

section
variable (header align file)

/-- The bytes of a placed tensor in the source file. -/
def Placement.read (placement : Placement) : Except TensorError Bytes :=
  readRawBytes file header.tensorDataOffset placement.name placement.info

/-- What is written behind the new header. -/
def copies (placed : List Placement) : Bytes :=
  (placed.map (Placement.range header.tensorDataOffset align)).flatMap (SourceRange.copy file)

end

section
variable (isFile : IsFile file) (good : IsAlignment align)
include isFile good

/-- A range of bytes that could be read, as it is copied. -/
lemma copy_range (known : Placed header align place) (read : place.read header file = .ok bytes) :
    bytes.length = place.size ∧ paddedSize align place.size = roundUp place.size align ∧
      (place.range header.tensorDataOffset align).copy file =
        bytes ++ List.replicate (roundUp place.size align - place.size) 0 := by
  obtain ⟨size, sized, enough, rfl⟩ := readRawBytes_eq_ok.mp read
  rw [known.sized, Option.some.injEq] at sized
  subst sized
  generalize startEq : wrapAdd header.tensorDataOffset place.info.offset.toNat = start at enough
  have limit : u64Limit = 2 ^ 64 := rfl
  have below : file.length < 2 ^ 63 := isFile
  have early : start < u64Limit := by
    rw [← startEq]
    exact wrapAdd_lt _ _
  rw [length_drop] at enough
  have fits : place.size < 2 ^ 63 := by omega
  have whole : start + place.size < u64Limit := by omega
  have above := le_roundUp good.positive place.size
  have under := roundUp_lt good.positive place.size
  have small := good.small
  refine ⟨?_, paddedSize_eq good fits, ?_⟩
  · rw [length_take, length_drop]
    omega
  · have padding : wrapSub (roundUp place.size align) place.size =
        roundUp place.size align - place.size := by
      rw [wrapSub, ← Nat.add_sub_assoc (by omega), Nat.sub_add_comm above, Nat.add_mod_right]
      exact Nat.mod_eq_of_lt (by omega)
    rw [SourceRange.copy, Placement.range]
    simp only [startEq, wrapAdd_of_lt whole, Nat.add_sub_cancel_left,
      paddedSize_eq good fits, padding]

variable (all : ∀ place ∈ placed, Placed header align place)
  (readable : ∀ place ∈ placed, ∃ bytes, place.read header file = .ok bytes)
include all readable

/-- The copies of ranges that could be read take their padded sizes. -/
lemma length_copies : (copies header align file placed).length = paddedTotal align placed := by
  induction placed with
  | nil => rfl
  | cons place placed ih =>
    rw [forall_mem_cons] at all readable
    obtain ⟨bytes, read⟩ := readable.1
    obtain ⟨length, padded, copied⟩ := copy_range isFile good all.1 read
    have above := le_roundUp good.positive place.size
    have others := ih all.2 readable.2
    rw [copies] at others ⊢
    rw [map_cons, flatMap_cons, length_append, others, copied, length_append,
      length, length_replicate, Nat.add_sub_cancel' above,
      paddedTotal, paddedTotal, map_cons, sum_cons, padded]

/-- The bytes of a named tensor in the new file. -/
lemma subset_bytes (newFile : IsFile (subsetFile file (layoutOf header align placed)))
    (laid : placements header align 0 names = .ok placed) (mem : place ∈ placed)
    (read : place.read header file = .ok bytes) :
    readRawBytes (subsetFile file (layoutOf header align placed))
      (layoutOf header align placed).1.length place.name
      place.placed.2 = .ok bytes := by
  obtain ⟨before, after, split⟩ := append_of_mem mem
  have known := all place mem
  obtain ⟨length, _, copied⟩ := copy_range isFile good known read
  have earlier := length_copies isFile good
    (fun j inside => all j (split ▸ mem_append_left _ inside))
    (fun j inside => readable j (split ▸ mem_append_left _ inside))
  -- the data is what comes before the tensor, its bytes and what follows
  have data : ∃ rest, subsetFile file (layoutOf header align placed) =
      ((layoutOf header align placed).1 ++ copies header align file before) ++ (bytes ++ rest) := by
    refine ⟨List.replicate (roundUp place.size align - place.size) 0 ++
      copies header align file after, ?_⟩
    have ranges : (layoutOf header align placed).2 =
        placed.map (Placement.range header.tensorDataOffset align) := rfl
    rw [subsetFile, ranges, append_assoc]
    congr 1
    rw [split, map_append, map_cons, flatMap_append, flatMap_cons, copied, append_assoc]
    rfl
  obtain ⟨rest, whole⟩ := data
  have total : (layoutOf header align placed).1.length +
      paddedTotal align before + bytes.length < 2 ^ 63 := by
    have short : _ < 2 ^ 63 := newFile
    rw [whole, length_append, length_append, earlier, length_append] at short
    omega
  have limit : u64Limit = 2 ^ 64 := rfl
  have offset : place.offset = paddedTotal align before := by
    rw [split] at laid
    rw [placements_offset (by decide) laid, zero_add]
    exact Nat.mod_eq_of_lt (by omega)
  have start : wrapAdd (layoutOf header align placed).1.length place.placed.2.offset.toNat =
      (layoutOf header align placed).1.length + paddedTotal align before := by
    rw [Placement.placed, UInt64.toNat_ofNat_of_lt' known.fits, offset]
    exact wrapAdd_of_lt (by omega)
  have tail : (subsetFile file (layoutOf header align placed)).drop
      ((layoutOf header align placed).1.length + paddedTotal align before) = bytes ++ rest := by
    rw [whole, ← earlier, ← length_append, drop_left]
  rw [readRawBytes_eq_ok, start, tail]
  refine ⟨place.size, known.sized, ?_, ?_⟩
  · rw [← length, length_append]
    exact Nat.le_add_right _ _
  · rw [← length, take_left]

end
end

/-- Stage slices: the new file is accepted with the metadata of the source and
exactly the named tensors, its data starts right behind its header, and a
tensor's bytes are those of the source.  The last part needs the source ranges
to lie in the source file and the new file to be one. -/
theorem subset_reads_like_source {file : List UInt8} {header : Header} {names : List Text}
    (isFile : IsFile file) (accepted : readHeader file = .ok header)
    (short : ∀ text ∈ header.strings, Short text) (distinct : names.Nodup)
    (known : ∀ name ∈ names, ∃ info size, get name header.tensors = some info ∧
        typeSizeBytes info.dtype info.elemCount = some size) :
    ∃ layout new, subsetLayout header names = .ok layout ∧
      readHeader (subsetFile file layout) = .ok new ∧
      (∀ key, get key new.metadata = get key header.metadata) ∧
      keys new.tensors = names ∧
      (∀ name ∈ names, ∃ info placed, get name header.tensors = some info ∧
        get name new.tensors = some placed ∧
        placed.dtype = info.dtype ∧ placed.dims = info.dims) ∧
      new.tensorDataOffset = layout.1.length ∧
      (IsFile (subsetFile file layout) → (∀ name ∈ names, ∃ bytes,
          header.readTensorBytes file name = .ok bytes) →
        ∀ name ∈ names, new.readTensorBytes (subsetFile file layout) name =
          header.readTensorBytes file name) := by
  have tidy := readHeader_tidy accepted
  obtain ⟨directory, _, boundary, _, named, _, built⟩ := readHeader_eq_ok.mp accepted
  have named : alignment header.metadata = .ok boundary := by
    rw [built]
    exact named
  have good := alignment_ok named
  obtain ⟨placed, laid⟩ : ∃ placed,
      placements header boundary 0 names = .ok placed := placements_ok known
  obtain ⟨order, all⟩ := placements_placed good.dvd (by decide) (Nat.dvd_zero _) laid
  have distinctPlaced : (placed.map Placement.name).Nodup := by
    rw [order]
    exact distinct
  have keys : keys (placed.map Placement.placed) = names := by
    rw [← order, OrderedMap.keys, map_map]
    rfl
  have lookup : ∀ placement ∈ placed, get placement.name
      (placed.map Placement.placed) = some placement.placed.2 := by
    intro placement member
    rw [OrderedMap.get_eq_some (by rw [keys]; exact distinct)]
    exact mem_map_of_mem member
  refine ⟨layoutOf header boundary placed, _, subsetLayout_eq_ok named laid order,
    subset_accepted tidy short named distinctPlaced all _,
    get_sortedMetadata tidy.metadata_unique, keys, ?_, rfl, ?_⟩
  · intro name inside
    rw [← order] at inside
    obtain ⟨placement, member, rfl⟩ := mem_map.mp inside
    exact ⟨placement.info, placement.placed.2, (all placement member).found,
      lookup placement member, rfl, rfl⟩
  · intro newFile readable name inside
    have raw : ∀ placement ∈ placed, header.readTensorBytes file placement.name =
        placement.read header file := by
      intro placement member
      rw [Header.readTensorBytes, (all placement member).found, Placement.read]
    have rawReadable : ∀ placement ∈ placed, ∃ bytes, placement.read header file = .ok bytes := by
      intro placement member
      rw [← raw placement member]
      refine readable placement.name ?_
      rw [← order]
      exact mem_map_of_mem member
    rw [← order] at inside
    obtain ⟨placement, member, rfl⟩ := mem_map.mp inside
    obtain ⟨bytes, read⟩ := rawReadable placement member
    rw [raw placement member, read, Header.readTensorBytes, lookup placement member]
    exact subset_bytes isFile good all rawReadable newFile laid member read

/-- A version 1 file with an array in its metadata and two tensors of four
bytes. -/
def smallFile : List UInt8 :=
  [0x47, 0x47, 0x55, 0x46, 1, 0, 0, 0, 2, 0, 0, 0, 1, 0, 0, 0] ++
    [1, 0, 0, 0, 0x6b, 9, 0, 0, 0, 7, 0, 0, 0, 2, 0, 0, 0, 1, 0] ++
    [2, 0, 0, 0, 0x77, 0, 1, 0, 0, 0, 1, 0, 0, 0, 0, 0, 0, 0] ++ [0, 0, 0, 0, 0, 0, 0, 0] ++
    [1, 0, 0, 0, 0x76, 1, 0, 0, 0, 1, 0, 0, 0, 0, 0, 0, 0] ++ [32, 0, 0, 0, 0, 0, 0, 0] ++
    List.replicate 10 0 ++ [1, 2, 3, 4] ++ List.replicate 28 0 ++ [5, 6, 7, 8]

def smallHeader : Header where
  version := 1
  metadata := [(['k'], .array [.bool true, .bool false])]
  tensors :=
    [(['w'], { dtype := 0, dims := [1], offset := 0 }),
      (['v'], { dtype := 0, dims := [1], offset := 32 })]
  tensorDataOffset := 96

set_option maxRecDepth 2000 in
/-- The two tensors in the other order. -/
theorem smallFile_sliced : ∃ layout new, subsetLayout smallHeader [['v'], ['w']] = .ok layout ∧
      readHeader (subsetFile smallFile layout) = .ok new ∧
      keys new.tensors = [['v'], ['w']] ∧
      new.tensorDataOffset = layout.1.length ∧
      new.readTensorBytes (subsetFile smallFile layout) ['v'] = .ok [5, 6, 7, 8] ∧
      new.readTensorBytes (subsetFile smallFile layout) ['w'] = .ok [1, 2, 3, 4] := by
  have short : ∀ text ∈ smallHeader.strings, Short text := by
    have listed : smallHeader.strings = [['k'], ['w'], ['v']] := rfl
    rw [listed]
    exact forall_mem_cons.mpr ⟨Nat.le_of_ble_eq_true rfl, forall_mem_cons.mpr
      ⟨Nat.le_of_ble_eq_true rfl, forall_mem_singleton.mpr (Nat.le_of_ble_eq_true rfl)⟩⟩
  have isFile : IsFile smallFile := Nat.lt_of_sub_eq_succ rfl
  have read : readHeader smallFile = .ok smallHeader := rfl
  have known : ∀ name ∈ [['v'], ['w']], ∃ info size, get name smallHeader.tensors = some info ∧
        typeSizeBytes info.dtype info.elemCount = some size := by
    intro name inside
    rcases mem_pair.mp inside with rfl | rfl <;> exact ⟨_, 4, rfl, rfl⟩
  obtain ⟨layout, new, laid, accepted, _, names, _, start, bytes⟩ :=
    subset_reads_like_source isFile read short (by decide) known
  have made : subsetLayout smallHeader [['v'], ['w']] = .ok (layoutOf smallHeader 32 _) :=
    subsetLayout_eq_ok rfl rfl rfl
  have newFile : IsFile (subsetFile smallFile layout) := by
    have sorted : sortedMetadata smallHeader.metadata = smallHeader.metadata :=
      mergeSort_singleton _
    rw [← Except.ok.inj (made.symm.trans laid), IsFile, subsetFile, layoutOf, headerBytes, sorted]
    exact Nat.lt_of_sub_eq_succ rfl
  have readable : ∀ name ∈ [['v'], ['w']], ∃ bytes,
      smallHeader.readTensorBytes smallFile name = .ok bytes := by
    intro name inside
    rcases mem_pair.mp inside with rfl | rfl <;> exact ⟨_, rfl⟩
  have same := bytes newFile readable
  exact ⟨layout, new, laid, accepted, names, start, same _ (mem_cons_self ..),
    same _ (mem_cons_of_mem _ (mem_cons_self ..))⟩

end Joshua.Gguf
