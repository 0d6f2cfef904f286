/-
Module: Joshua.Proofs.ToolSectionFormats
Purpose: Kimi K2's and DeepSeek V3's calls are read with final decisions, so
  both formats stream the same calls and the same prose however the text is
  cut.
Trusted boundary: none
-/
import Joshua.Proofs.ToolReaderRefines
import Joshua.Proofs.ToolSectionScan

namespace Joshua
open Joshua.Foundation List

/-- A reading that leaves each call to some reader of a part of the text, and
does so for good once it has decided. -/
lemma CallReader.delegate {read : Text → Bool → CallRead}
    (calls : ∀ text ended found rest, read text ended = .call found rest →
      ∃ inner view, CallReader inner ∧ inner view ended = .call found rest ∧ view <:+ text)
    (decided : ∀ text, read text false = .waiting ∨
      (∀ tail ended, read (text ++ tail) ended = .refused) ∨
      ∃ inner view, CallReader inner ∧
        ∀ tail ended, read (text ++ tail) ended = inner (view ++ tail) ended) :
    CallReader read := by
  -- what is said without more text is said by the reader chosen
  have now {text view : Text} {inner : Text → Bool → CallRead}
      (same : ∀ tail ended, read (text ++ tail) ended = inner (view ++ tail) ended) :
      inner view false = read text false := by
    have here := same [] false
    rw [append_nil, append_nil] at here
    exact here.symm
  have kept {text : Text} (refuses : ∀ tail ended, read (text ++ tail) ended = .refused) :
      read text false = .refused := by
    have here := refuses [] false
    rwa [append_nil] at here
  constructor
  case refused =>
    intro text reading tail ended
    rcases decided text with waits | refuses | ⟨inner, view, reader, same⟩
    · cases waits.symm.trans reading
    · exact refuses tail ended
    · rw [same]
      exact reader.refused view ((now same).trans reading) tail ended
  case closed =>
    intro text found rest reading tail ended
    rcases decided text with waits | refuses | ⟨inner, view, reader, same⟩
    · cases waits.symm.trans reading
    · cases (kept refuses).symm.trans reading
    · rw [same]
      exact reader.closed view _ _ ((now same).trans reading) tail ended
  case opened =>
    intro text found reading tail ended
    rcases decided text with waits | refuses | ⟨inner, view, reader, same⟩
    · cases waits.symm.trans reading
    · cases (kept refuses).symm.trans reading
    · rw [same]
      exact reader.opened view _ ((now same).trans reading) tail ended
  case named =>
    intro text ended found rest reading
    obtain ⟨inner, view, reader, inside, _⟩ := calls _ _ _ _ reading
    exact reader.named _ _ _ _ inside
  case final =>
    intro text ended found rest reading
    obtain ⟨inner, view, reader, inside, _⟩ := calls _ _ _ _ reading
    exact reader.final _ _ _ _ inside
  case leaves =>
    intro text ended found rest reading
    obtain ⟨inner, view, reader, inside, suffix⟩ := calls _ _ _ _ reading
    exact (reader.leaves _ _ _ _ inside).trans suffix

/-! ## Headers -/

section Headers
variable {ending : Text} {body : Text → Text → Bool → CallRead}

/-- A call with a header up to `ending` and the rest of it behind that. -/
def headed (ending : Text) (body : Text → Text → Bool → CallRead)
    (text : Text) (finished : Bool) : CallRead :=
  match find ending text with
  | none => headerPending text ending finished
  | some (header, rest) => if headerBroken header then .refused else body header rest finished

variable {text header rest : Text}

lemma find_eq_none (missing : find ending text = none) : cutFirst [ending] text = none :=
  Option.map_eq_none_iff.mp missing

lemma headerBroken_append (first second : Text) : headerBroken (first ++ second) =
      (headerBroken first || headerBroken second) :=
  any_append

/-- A header that is broken before its end has come stays broken. -/
lemma headed_broken (missing : find ending text = none)
    (broken : headerBroken (settled [ending] text) = true) (tail : Text) (ended : Bool) :
    headed ending body (text ++ tail) ended = .refused := by
  have search := cutFirst_hold (find_eq_none missing) tail
  rw [headed]
  cases found : find ending (text ++ tail) with
  | none =>
    dsimp only
    rw [headerPending, settled_append, headerBroken_append, broken, Bool.true_or, Bool.or_true]
    rfl
  | some parts =>
    obtain ⟨cut, later, rfl⟩ := Option.map_eq_some_iff.mp found
    rw [later] at search
    obtain ⟨inner, _, rfl⟩ := Option.map_eq_some_iff.mp search.symm
    dsimp only [Cut.prepend]
    rw [headerBroken_append, broken]
    rfl

/-- Reading behind a header is final when the rest is. -/
lemma headed_reader (bodies : ∀ header, CallReader (body header)) :
    CallReader (headed ending body) := by
  apply CallReader.delegate
  · intro text ended found rest reading
    rw [headed] at reading
    split at reading
    · rw [headerPending] at reading
      split at reading <;> cases reading
    next header args search =>
      split at reading
      · cases reading
      next whole =>
        refine ⟨_, args, bodies header, reading, ?_⟩
        rw [find_rebuild search, ← append_assoc]
        exact suffix_append _ _
  · intro text
    cases search : find ending text with
    | none =>
      by_cases broken : headerBroken (settled [ending] text) = true
      · exact .inr (.inl (headed_broken search broken))
      · left
        rw [headed, search, headerPending]
        simp [broken]
    | some parts =>
      obtain ⟨header, args⟩ := parts
      right
      have longer (tail : Text) (ended : Bool) : headed ending body (text ++ tail) ended =
          if headerBroken header then .refused else body header (args ++ tail) ended := by
        rw [headed, find_append search]
      by_cases broken : headerBroken header = true
      · exact .inl fun tail ended => by rw [longer, if_pos broken]
      · exact .inr ⟨_, args, bodies header, fun tail ended => by rw [longer, if_neg broken]⟩

end Headers

/-! ## Calls with raw arguments -/

section Arguments
variable {canonical : Text → Text} {ends : List Text} {close : Text → Text → Bool → Option Text}

/-- A call whose arguments are raw; `close` gives the text behind the call
from the text behind its arguments. -/
def namedCall (canonical : Text → Text) (id : Option Text) (name : Text) (ends : List Text)
    (close : Text → Text → Bool → Option Text) (text : Text) (finished : Bool) : CallRead :=
  if badName name then .refused
  else
    let raw := rawArgs canonical text ends finished
    .call ⟨id, name, raw.stream, raw.done⟩ (raw.rest.bind fun rest => close text rest finished)

/-- The end of a call is final, and lies in the text. -/
structure Closing (ends : List Text) (close : Text → Text → Bool → Option Text) : Prop where
  extend : ∀ text rest, (∃ ending ∈ ends, ending ++ rest <:+ text) →
    ∀ left, close text rest false = some left → ∀ tail finished,
      close (text ++ tail) (rest ++ tail) finished = some (left ++ tail)
  suffix : ∀ text rest, (∃ ending ∈ ends, ending ++ rest <:+ text) →
    ∀ left finished, close text rest finished = some left → left <:+ text

lemma refused_reader : CallReader fun _ _ => .refused :=
  ⟨fun _ _ _ _ => rfl, nofun, nofun, nofun, nofun, nofun⟩

lemma namedCall_reader (apart : Apart ends) (filled : ∀ ending ∈ ends, ending ≠ [])
    (closing : Closing ends close) (id : Option Text) (name : Text) :
    CallReader (namedCall canonical id name ends close) := by
  by_cases bad : badName name = true
  · have refuses : namedCall canonical id name ends close = fun _ _ => .refused := by
      funext text ended
      exact if_pos bad
    rw [refuses]
    exact refused_reader
  · have reads : ∀ text ended, namedCall canonical id name ends close text ended =
          .call ⟨id, name, (rawArgs canonical text ends ended).stream,
              (rawArgs canonical text ends ended).done⟩
            ((rawArgs canonical text ends ended).rest.bind fun rest =>
              close text rest ended) :=
      fun _ _ => if_neg bad
    constructor
    case refused =>
      intro text reading
      cases (reads text false).symm.trans reading
    case closed =>
      intro text found rest reading tail ended
      obtain ⟨rfl, closed⟩ := CallRead.call.inj ((reads text false).symm.trans reading)
      obtain ⟨left, here, ends_⟩ := Option.bind_eq_some_iff.mp closed
      have closes : (rawArgs canonical text ends false).rest ≠ none := by
        rw [here]
        nofun
      have behind := (rawArgs_sound text false).leaves left here
      rw [reads, rawArgs_closed apart filled closes]
      simp only [RawArgs.extend, here, Option.map_some, Option.bind_some]
      rw [closing.extend _ _ behind _ ends_]
    case opened =>
      intro text found reading tail ended
      obtain ⟨rfl, opened⟩ := CallRead.call.inj ((reads text false).symm.trans reading)
      refine ⟨_, _, reads _ _, rfl, rfl, ?_⟩
      intro args done
      dsimp only at done
      have isOver : false = true ∨ (rawArgs canonical text ends false).rest ≠ none :=
        (rawArgs_sound text false).settled.mp (by rw [done]; nofun)
      rcases isOver with never | closes
      · cases never
      · rw [rawArgs_closed apart filled closes]
        exact done
    case named =>
      intro text ended found rest reading
      obtain ⟨rfl, _⟩ := CallRead.call.inj ((reads text ended).symm.trans reading)
      rintro rfl
      exact bad rfl
    case final =>
      intro text ended found rest reading isOver
      obtain ⟨rfl, closed⟩ := CallRead.call.inj ((reads text ended).symm.trans reading)
      refine (rawArgs_sound text ended).settled.mpr (isOver.imp_right ?_)
      intro closes missing
      rw [missing] at closed
      exact closes closed.symm
    case leaves =>
      intro text ended found rest reading
      obtain ⟨rfl, closed⟩ := CallRead.call.inj ((reads text ended).symm.trans reading)
      obtain ⟨left, here, ends_⟩ := Option.bind_eq_some_iff.mp closed
      exact closing.suffix _ _ ((rawArgs_sound text ended).leaves left here) _ _ ends_

end Arguments

/-! ## Closing tags -/

variable {text : Text}

lemma cutFirst_before_isPrefix {markers : List Text} {cut : Cut Char}
    (found : cutFirst markers text = some cut) (tail : Text) : cut.before <+: text ++ tail := by
  rw [cutFirst_rebuild found, append_assoc]
  exact prefix_append _ _

/-- A tag that appears later cannot come before one that is there. -/
lemma cutFirst_before_lt {first second : List Text} {cut other : Cut Char} {tail : Text}
    (foreign : ∀ inner ∈ first, ∀ outer ∈ second, ¬ inner <:+: outer)
    (found : cutFirst first text = some cut) (missing : cutFirst second text = none)
    (later : cutFirst second (text ++ tail) = some other) :
    byteLength cut.before < byteLength other.before := by
  apply Nat.lt_of_not_le
  intro shorter
  have begins := cutFirst_before_isPrefix later []
  rw [append_nil] at begins
  exact cutFirst_not_before foreign found missing later
    (prefix_of_byteLength_le begins (cutFirst_before_isPrefix found tail) shorter)

section Closes
variable {close : Text} {stops : List Text} {text left : Text}

/-- Where a region ends, once known, is final. -/
lemma closeAfter_extend (apart : Apart stops) (inner : ∀ stop ∈ stops, ¬ close <:+: stop)
    (outer : ∀ stop ∈ stops, ¬ stop <:+: close)
    (closed : closeAfter text close stops false = some left) (tail : Text) (ended : Bool) :
    closeAfter (text ++ tail) close stops ended = some (left ++ tail) := by
  simp only [closeAfter, Bool.false_eq_true, if_false] at closed
  split_ifs at closed with nonempty starts off
  all_goals
    have filled : skipWs text ++ tail ≠ [] := by simp [nonempty]
    rw [closeAfter, skipWs_append nonempty tail, if_neg filled]
  · cases closed
    rw [ isPrefixOf_iff_prefix] at starts
    have longer := isPrefixOf_iff_prefix.mpr (starts.trans (prefix_append _ tail))
    rw [if_pos longer, drop_append_of_le_length starts.length_le]
  · rw [ isPrefixOf_iff_prefix] at starts off
    obtain ⟨startsToo, offToo⟩ := not_prefix_append starts off tail
    rw [← isPrefixOf_iff_prefix] at startsToo offToo
    rw [if_neg startsToo, if_neg offToo]
    split at closed
    next cut here none =>
      cases closed
      rw [cutFirst_append (apart_singleton close) here]
      cases later : cutFirst stops (skipWs text ++ tail) with
      | none => rfl
      | some stop =>
        have first := cutFirst_before_lt (by simpa using inner) here none later
        dsimp only [Cut.extend]
        rw [if_pos first]
    next cut stop here there =>
      rw [cutFirst_append (apart_singleton close) here, cutFirst_append apart there]
      dsimp only [Cut.extend]
      split at closed
      next first =>
        cases closed
        rw [if_pos first]
      next first =>
        cases closed
        rw [if_neg first]
    next => cases closed
    next stop none there =>
      cases closed
      rw [cutFirst_append apart there]
      cases later : cutFirst [close] (skipWs text ++ tail) with
      | none => rfl
      | some cut =>
        have first := cutFirst_before_lt (by simpa using outer) there none later
        dsimp only [Cut.extend]
        rw [if_neg (Nat.lt_asymm first)]

lemma closeAfter_suffix {ended : Bool}
    (closed : closeAfter text close stops ended = some left) : left <:+ text := by
  have spaced := skipWs_suffix text
  have behind : ∀ {cut : Cut Char},
      cutFirst [close] (skipWs text) = some cut → cut.after <:+ text := by
    intro cut found
    exact ((suffix_append _ _).trans (cutFirst_suffix found)).trans spaced
  rw [closeAfter] at closed
  split at closed
  · cases closed
  · split at closed
    · cases closed
      exact (drop_suffix _ _).trans spaced
    · split at closed
      · split at closed
        · cases closed
          exact nil_suffix
        · cases closed
      · split at closed
        next found _ =>
          cases closed
          exact behind found
        next found _ =>
          split at closed
          · cases closed
            exact behind found
          · cases closed
            exact suffix_rfl
        next =>
          split at closed
          · cases closed
            exact suffix_rfl
          · cases closed
        next =>
          cases closed
          exact suffix_rfl

end Closes

/-! ## Kimi K2 -/

/-- The text behind a call; the section's end is left for the section. -/
def k2Close (header args rest : Text) (_ : Bool) : Option Text :=
  some (if k2SectionEnd.isSuffixOf (before (header ++ (k2Args ++ args)) rest) then
    k2SectionEnd ++ rest else rest)

lemma k2Call_eq (canonical : Text → Text) : k2Call canonical = headed k2Args fun header =>
      namedCall canonical (k2Header (trim header)).1
        (stripPrefix "functions.".toList (k2Header (trim header)).2)
        [k2CallEnd, k2SectionEnd] (k2Close header) := by
  funext text ended
  rw [k2Call, headed]
  cases search : find k2Args text with
  | none => rfl
  | some parts =>
    obtain ⟨header, args⟩ := parts
    have whole := find_rebuild search
    subst whole
    dsimp only
    rw [namedCall]
    simp only [Option.map_eq_bind]
    rfl

lemma before_of_suffix (front rest : Text) : before (front ++ rest) rest = front := by
  rw [before, length_append, Nat.add_sub_cancel, take_left]

lemma k2Close_closing (header : Text) : Closing [k2CallEnd, k2SectionEnd] (k2Close header) := by
  constructor
  case extend =>
    rintro text rest ⟨ending, _, behind⟩ left closed tail ended
    have suffix : rest <:+ header ++ (k2Args ++ text) :=
      ((suffix_append _ _).trans behind).trans ((suffix_append _ _).trans (suffix_append _ _))
    have same : header ++ (k2Args ++ (text ++ tail)) = header ++ (k2Args ++ text) ++ tail := by
      simp only [append_assoc]
    rw [k2Close] at closed ⊢
    cases closed
    rw [same, before_append suffix]
    split <;> simp only [append_assoc]
  case suffix =>
    rintro text rest ⟨ending, mem, used, whole⟩ left ended closed
    subst whole
    rw [k2Close] at closed
    cases closed
    have front : header ++ (k2Args ++ (used ++ (ending ++ rest))) =
        header ++ (k2Args ++ used) ++ ending ++ rest := by
      simp only [append_assoc]
    rw [front, before_of_suffix]
    split
    next section_ =>
      -- the arguments were closed by the section's end itself
      have same : ending = k2SectionEnd := by
        rw [isSuffixOf_iff_suffix] at section_
        rcases mem_cons.mp mem with rfl | last
        · have other : k2CallEnd <:+ header ++ (k2Args ++ used) ++ k2CallEnd := suffix_append _ _
          have apart : ¬ k2SectionEnd <:+ k2CallEnd ∧ ¬ k2CallEnd <:+ k2SectionEnd := by
            decide +kernel
          rcases suffix_or_suffix_of_suffix section_ other with one | two
          · exact absurd one apart.1
          · exact absurd two apart.2
        · exact mem_singleton.mp last
      subst same
      exact suffix_append _ _
    next => exact (suffix_append _ _).trans (suffix_append _ _)

lemma k2Call_reader (canonical : Text → Text) : CallReader (k2Call canonical) := by
  have apart : Apart [k2CallEnd, k2SectionEnd] := by decide +kernel
  rw [k2Call_eq]
  exact headed_reader fun header =>
    namedCall_reader apart (by decide +kernel) (k2Close_closing header) _ _

lemma k2_tags : SectionTags [k2Section] [k2CallMarker] [k2SectionEnd] where
  markers := by decide +kernel
  tags := by decide +kernel
  named := by decide +kernel
  angled := by decide +kernel
  some_call := nofun

lemma kimiK2_steady (canonical : Text → Text) : (kimiK2 canonical).Steady :=
  sectionGrammar_steady (k2Call_reader canonical) k2_tags
    (forall_mem_cons.mpr ⟨rfl, forall_mem_singleton.mpr rfl⟩) rfl rfl

/-! ## DeepSeek V3 -/

/-- Whether arguments start with a bracket. -/
def bracketed (text : Text) : Bool :=
  (trimStart text).head?.any fun c => c = '{' || c = '['

lemma bracketed_append (begun : trimStart text ≠ []) (tail : Text) :
    bracketed (text ++ tail) = bracketed text := by
  rw [bracketed, bracketed, trimStart, dropWhile_extend begun]
  obtain ⟨c, rest, same⟩ := exists_cons_of_ne_nil begun
  rw [trimStart] at same ⊢
  rw [same]
  rfl

lemma occurs_append {pattern : Text} (found : occurs pattern text = true) (tail : Text) :
    occurs pattern (text ++ tail) = true :=
  occurs_iff.mpr ((occurs_iff.mp found).trans (prefix_append _ _).isInfix)

variable {line rest : Text}

/-- A line that has not ended becomes the beginning of a longer one. -/
lemma find_newline {tail : Text} (missing : find ['\n'] text = none)
    (later : find ['\n'] (text ++ tail) = some (line, rest)) : text <+: line := by
  obtain ⟨cut, search, same⟩ := Option.map_eq_some_iff.mp later
  cases same
  have whole := settled_append_held [['\n']] text
  rw [held_letter, append_nil] at whole
  rw [cutFirst_hold (find_eq_none missing), whole] at search
  obtain ⟨inner, _, rfl⟩ := Option.map_eq_some_iff.mp search
  exact prefix_append _ _

lemma v3Fenced_bare (bare : v3Fenced text false = .bare) (tail : Text) (ended : Bool) :
    v3Fenced (text ++ tail) ended = .bare := by
  have first : v3Fenced text false = if bracketed text then .bare else _ := rfl
  have second : v3Fenced (text ++ tail) ended = if bracketed (text ++ tail) then .bare else _ := rfl
  rw [first] at bare
  rw [second]
  by_cases opens : bracketed (text ++ tail) = true
  · rw [if_pos opens]
  · rw [if_neg opens]
    have closed : ¬ bracketed text = true := by
      intro opened
      have begun : trimStart text ≠ [] := by
        intro blank
        rw [bracketed, blank] at opened
        cases opened
      rw [bracketed_append begun] at opens
      exact opens opened
    rw [if_neg closed] at bare
    cases search : find ['\n'] text with
    | some parts =>
      obtain ⟨line, fence⟩ := parts
      rw [search] at bare
      rw [find_append search]
      dsimp only at bare ⊢
      split_ifs at bare with marked off away
      · rw [if_pos marked]
      · rw [Bool.not_false, Bool.true_and] at away
        rw [ isPrefixOf_iff_prefix] at off away
        obtain ⟨offToo, awayToo⟩ := not_prefix_append off away tail
        rw [← isPrefixOf_iff_prefix] at offToo awayToo
        rw [if_neg marked, if_neg offToo, Bool.eq_false_iff.mpr awayToo, Bool.and_false]
        rfl
    | none =>
      rw [search] at bare
      dsimp only at bare
      split at bare
      · cases bare
      next marked =>
        rw [Bool.not_false, Bool.true_and, Bool.not_eq_true', Bool.not_eq_false] at marked
        cases later : find ['\n'] (text ++ tail) with
        | some parts =>
          obtain ⟨line, fence⟩ := parts
          obtain ⟨more, rfl⟩ := find_newline search later
          dsimp only
          rw [if_pos (occurs_append marked more)]
        | none =>
          dsimp only
          rw [occurs_append marked, Bool.not_true, Bool.and_false]
          rfl

lemma v3Fenced_spec {ended : Bool} (fenced : v3Fenced text ended = .fenced line rest) :
    bracketed text = false ∧ occurs v3CallEnd line = false ∧
      find ['\n'] text = some (line, v3Fence ++ rest) := by
  have first : v3Fenced text ended = if bracketed text then .bare else _ := rfl
  rw [first] at fenced
  split at fenced
  · cases fenced
  next closed =>
    split at fenced
    next line fence search =>
      split_ifs at fenced with marked starts
      cases fenced
      obtain ⟨rest, rfl⟩ := isPrefixOf_iff_prefix.mp starts
      rw [drop_left]
      exact ⟨Bool.eq_false_iff.mpr closed, Bool.eq_false_iff.mpr marked, search⟩
    next => split_ifs at fenced

lemma v3Fenced_fenced (fenced : v3Fenced text false = .fenced line rest) (tail : Text)
    (ended : Bool) : v3Fenced (text ++ tail) ended = .fenced line (rest ++ tail) := by
  obtain ⟨closed, unmarked, search⟩ := v3Fenced_spec fenced
  have begun : trimStart text ≠ [] := by
    intro blank
    rw [trimStart, dropWhile_eq_nil_iff] at blank
    have mem : '`' ∈ text := by
      rw [find_rebuild search]
      exact mem_append_right _ (mem_append_right _ (mem_append_left _ (by decide)))
    exact absurd (blank _ mem) (by decide)
  have second : v3Fenced (text ++ tail) ended = if bracketed (text ++ tail) then .bare else _ := rfl
  have starts : v3Fence.isPrefixOf (v3Fence ++ (rest ++ tail)) = true :=
    isPrefixOf_iff_prefix.mpr (prefix_append _ _)
  rw [second, bracketed_append begun, closed, find_append search, append_assoc]
  dsimp only
  rw [unmarked, starts, drop_left]
  rfl

/-- Reading behind a newline that may still come, by a reader that does not
end a call before any text. -/
lemma stripped_reader {read : Text → Bool → CallRead} (reader : CallReader read)
    (waits : ∀ found rest, read [] false ≠ .call found (some rest)) :
    CallReader fun text ended => read (stripPrefix ['\n'] text) ended := by
  have grown : ∀ {text}, text ≠ [] → ∀ tail,
      stripPrefix ['\n'] (text ++ tail) = stripPrefix ['\n'] text ++ tail := by
    intro text filled tail
    obtain ⟨c, rest, rfl⟩ := exists_cons_of_ne_nil filled
    rw [stripPrefix, stripPrefix, cons_append]
    simp only [isPrefixOf_cons_cons, isPrefixOf_nil_left]
    split <;> rfl
  constructor
  case refused =>
    intro text reading tail ended
    cases text with
    | nil => exact reader.refused [] reading (stripPrefix ['\n'] tail) ended
    | cons c rest =>
      rw [grown (cons_ne_nil _ _)]
      exact reader.refused _ reading tail ended
  case closed =>
    intro text found rest reading tail ended
    cases text with
    | nil => exact absurd reading (waits found rest)
    | cons c more =>
      rw [grown (cons_ne_nil _ _)]
      exact reader.closed _ _ _ reading tail ended
  case opened =>
    intro text found reading tail ended
    cases text with
    | nil => exact reader.opened [] found reading (stripPrefix ['\n'] tail) ended
    | cons c more =>
      rw [grown (cons_ne_nil _ _)]
      exact reader.opened _ _ reading tail ended
  case named => exact fun _ _ _ _ reading => reader.named _ _ _ _ reading
  case final => exact fun _ _ _ _ reading => reader.final _ _ _ _ reading
  case leaves =>
    intro text ended found rest reading
    refine (reader.leaves _ _ _ _ reading).trans ?_
    rw [stripPrefix]
    split
    · exact drop_suffix _ _
    · exact suffix_rfl

section DeepSeek
variable (canonical : Text → Text)

/-- A call without a fence, named by its header. -/
def v3Bare (header : Text) : Text → Bool → CallRead :=
  namedCall canonical none (trim header) [v3CallEnd] fun _ rest _ => some rest

/-- A call in a fence, named by the line before it. -/
def v3FencedCall (line text : Text) (finished : Bool) : CallRead :=
  namedCall canonical none (trim line) [v3FenceEnd]
    (fun _ tail finished => closeAfter tail v3CallEnd [v3CallMarker, v3SectionEnd] finished)
    (stripPrefix ['\n'] text) finished

/-- A call behind its header. -/
def v3Body (header after : Text) (finished : Bool) : CallRead :=
  match v3Fenced after finished with
  | .unknown => .waiting
  | .bare => v3Bare canonical header after finished
  | .fenced line rest => v3FencedCall canonical line rest finished

lemma v3Call_eq : v3Call canonical = headed v3Sep (v3Body canonical) := by
  funext text ended
  rw [v3Call, headed]
  cases search : find v3Sep text with
  | none => rfl
  | some parts =>
    obtain ⟨header, after⟩ := parts
    dsimp only
    rw [v3Body]
    cases v3Fenced after ended with
    | unknown => rfl
    | bare =>
      dsimp only
      rw [v3Bare, namedCall]
      simp only [Option.bind_fun_some]
    | fenced line rest => rfl

lemma v3Bare_reader (header : Text) : CallReader (v3Bare canonical header) := by
  refine namedCall_reader (apart_singleton _) (by decide +kernel) ?_ _ _
  constructor
  case extend =>
    intro text rest _ left closed tail ended
    cases closed
    rfl
  case suffix =>
    rintro text rest ⟨ending, _, behind⟩ left ended closed
    cases closed
    exact (suffix_append _ _).trans behind

lemma v3FencedCall_reader (line : Text) : CallReader (v3FencedCall canonical line) := by
  have apart : Apart [v3CallMarker, v3SectionEnd] := by decide +kernel
  have inner : ∀ stop ∈ [v3CallMarker, v3SectionEnd], ¬ v3CallEnd <:+: stop := by decide +kernel
  have outer : ∀ stop ∈ [v3CallMarker, v3SectionEnd], ¬ stop <:+: v3CallEnd := by decide +kernel
  refine stripped_reader (namedCall_reader (apart_singleton _) (by decide +kernel) ?_ _ _) ?_
  · constructor
    case extend =>
      intro text rest _ left closed tail ended
      exact closeAfter_extend apart inner outer closed tail ended
    case suffix =>
      rintro text rest ⟨ending, _, behind⟩ left ended closed
      exact (closeAfter_suffix closed).trans ((suffix_append _ _).trans behind)
  · intro found rest reading
    rw [namedCall] at reading
    split at reading
    · cases reading
    · cases (CallRead.call.inj reading).2

lemma v3Body_reader (header : Text) : CallReader (v3Body canonical header) := by
  have bare := v3Bare_reader canonical header
  have fenced := v3FencedCall_reader canonical
  apply CallReader.delegate
  · intro text ended found rest reading
    rw [v3Body] at reading
    cases shape : v3Fenced text ended with
    | unknown =>
      rw [shape] at reading
      cases reading
    | bare =>
      rw [shape] at reading
      exact ⟨_, text, bare, reading, suffix_rfl⟩
    | fenced line left =>
      rw [shape] at reading
      refine ⟨_, left, fenced line, reading, ?_⟩
      rw [find_rebuild (v3Fenced_spec shape).2.2]
      exact (suffix_append _ _).trans ((suffix_append _ _).trans (suffix_append _ _))
  · intro text
    cases shape : v3Fenced text false with
    | unknown => exact .inl (by rw [v3Body, shape])
    | bare =>
      exact .inr (.inr ⟨_, text, bare, fun tail ended => by
        rw [v3Body, v3Fenced_bare shape]⟩)
    | fenced line rest =>
      exact .inr (.inr ⟨_, rest, fenced line, fun tail ended => by
        rw [v3Body, v3Fenced_fenced shape]⟩)

lemma v3Call_reader : CallReader (v3Call canonical) := by
  rw [v3Call_eq]
  exact headed_reader (v3Body_reader canonical)

lemma v3_tags : SectionTags v3Sections [v3CallMarker] [v3SectionEnd] where
  markers := by decide +kernel
  tags := by decide +kernel
  named := by decide +kernel
  angled := by decide +kernel
  some_call := nofun

lemma deepSeekV3_steady : (deepSeekV3 canonical).Steady := by
  refine sectionGrammar_steady (v3Call_reader canonical) v3_tags ?_ ?_ rfl
  · exact forall_mem_append.mpr ⟨forall_mem_map.mpr fun _ _ => rfl, forall_mem_singleton.mpr rfl⟩
  · rfl

end DeepSeek

/-! ## Both formats -/

/-- Kimi K2's and DeepSeek V3's calls, prose and started calls do not depend
on how the text is cut. -/
theorem feed_sections_agree (canonical : Text → Text) (pieces : List Text)
    {rounds : Nat} (enough : 3 * byteLength pieces.flatten + 3 ≤ rounds) :
    StreamsLikeWhole (kimiK2 canonical) .kimiK2 rounds pieces ∧
      StreamsLikeWhole (deepSeekV3 canonical) .deepSeekV3 rounds pieces :=
  ⟨(kimiK2_steady canonical).streamsLikeWhole rfl pieces enough,
    (deepSeekV3_steady canonical).streamsLikeWhole rfl pieces enough⟩

theorem feed_sections_agree_of_pieces :
    ∃ pieces : List Text, 3 * byteLength pieces.flatten + 3 ≤ 600 ∧
      StreamsLikeWhole (kimiK2 id) .kimiK2 600 pieces ∧
      StreamsLikeWhole (deepSeekV3 id) .deepSeekV3 600 pieces ∧
      (feed (some (kimiK2 id)) (some .kimiK2) 600 pieces).toOption.map
          (fun result => result.1.parsedCalls) =
        some [⟨"f".toList, "\x7b\x7d".toList, some "functions.f:0".toList⟩] :=
  ⟨["a <|tool_calls_section_begin|><|tool_ca".toList,
      "ll_begin|>functions.f:0<|tool_call_argument_begin|>\x7b".toList,
      "\x7d<|tool_call_end|><|tool_calls_section_end|>".toList],
    by decide +kernel, (feed_sections_agree id _ (by decide +kernel)).1,
    (feed_sections_agree id _ (by decide +kernel)).2, by decide +kernel⟩

end Joshua
