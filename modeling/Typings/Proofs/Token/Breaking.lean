import Typings.Proofs.Token.Onward
/-!
# Tokens in front of a text that breaks off

No token goes on over a blank or a slash, unless it is quoted text.  So a token that is read in front of
a text is read in front of any other one that is the same up to where it breaks off with a blank or a
comment.

* `CodePoint.isSolid`       a code point that ignored text does not begin with;
* `Text.Breaks t' t`        `t'` goes on as `t` until it breaks off;
* `Token.read?_cases`       what is read is a word, quoted text, a numeral, or a spelling;
* `Token.read?_of_breaks`   a token is read in front of a text that breaks off.
-/

namespace Typings

/-- neither a blank nor a slash, so ignored text does not begin with it -/
def CodePoint.isSolid (x : CodePoint) : Bool := !x.isBlank && x != '/'

/-- a text is another one up to its first blank or slash -/
def Text.Breaks (t' t : Text) : Prop :=
  ∀ front : Text, (∀ x ∈ front, x.isSolid = true) → front <+: t' → front <+: t

/-! ## Code points -/

namespace CodePoint

theorem isSolid_iff {x : CodePoint} : x.isSolid = true ↔ x.isBlank = false ∧ x ≠ '/' := by
  rw [isSolid, Bool.and_eq_true, Bool.not_eq_true', bne_iff_ne]

/-- a class without blanks and slashes is solid -/
theorem isSolid_of {p : CodePoint → Bool} (apart : ∀ x ∈ .scalar '/' :: blanks, p x = false) {x : CodePoint}
    (h : p x = true) : x.isSolid = true := by
  rw [isSolid_iff]
  constructor
  · refine Bool.eq_false_iff.mpr fun blank => ?_
    rw [apart x (List.mem_cons_of_mem _ (mem_blanks blank))] at h
    cases h
  · rintro rfl
    rw [apart _ List.mem_cons_self] at h
    cases h

theorem isSolid_of_isNamePart {x : CodePoint} (h : x.isNamePart = true) : x.isSolid = true :=
  isSolid_of (by decide) h

theorem isSolid_of_isHexDigit {x : CodePoint} (h : x.isHexDigit = true) : x.isSolid = true :=
  isSolid_of (by decide) h

theorem isSolid_of_isDecimal {x : CodePoint} (h : x.isDecimal = true) : x.isSolid = true :=
  isSolid_of (by decide) h

/-- the spelling of a keyword or a punctuation mark is solid -/
theorem isSolid_of_spelling {k : Terminal} {s : String} (h : k.spelling? = some s) :
    ∀ x ∈ Text.ofString s, x.isSolid = true := by
  have checked : ∀ k ∈ Terminal.all, ∀ s ∈ k.spelling?, ∀ x ∈ Text.ofString s, x.isSolid = true := by
    decide
  exact checked k k.mem_all s h

end CodePoint

/-! ## Texts that break off -/

namespace Text.Breaks
variable {t' t : Text}

theorem refl (t : Text) : Breaks t t := fun _ _ h => h

/-- nothing has to be said of a text that begins with ignored text -/
theorem of_not_solid (h : ∀ x ∈ t'.head?, x.isSolid = false) : Breaks t' t := by
  intro front solid isFront
  cases front with
  | nil => exact List.nil_prefix
  | cons x front =>
    obtain ⟨more, rfl⟩ := isFront
    have first := solid x List.mem_cons_self
    rw [h x rfl] at first
    cases first

theorem append (h : Breaks t' t) (s : Text) : Breaks (s ++ t') (s ++ t) := by
  induction s with
  | nil => exact h
  | cons y s ih =>
    intro front solid isFront
    cases front with
    | nil => exact List.nil_prefix
    | cons x front =>
      obtain ⟨rfl, further⟩ := List.cons_prefix_cons.mp isFront
      exact List.cons_prefix_cons.mpr ⟨rfl, ih front (List.forall_mem_cons.mp solid).2 further⟩

/-- a solid front and what stands behind it -/
theorem behind {front more : Text} (h : Breaks t' t) (solid : ∀ x ∈ front, x.isSolid = true)
    (e : t' = front ++ more) : ∃ rest, t = front ++ rest ∧ Breaks more rest := by
  obtain ⟨rest, rfl⟩ := h front solid (e ▸ List.prefix_append ..)
  refine ⟨rest, rfl, fun next solid' isFront => ?_⟩
  have whole := h (front ++ next) (List.forall_mem_append.mpr ⟨solid, solid'⟩)
    (e ▸ (List.prefix_append_right_inj front).mpr isFront)
  exact (List.prefix_append_right_inj front).mp whole

theorem not_begins {p : CodePoint → Bool} (h : Breaks t' t) (solid : ∀ x, p x = true → x.isSolid = true)
    (ends : ¬ t.Begins p) : ¬ t'.Begins p := by
  rintro ⟨x, first, holds⟩
  cases t' with
  | nil => cases first
  | cons y more =>
    cases first
    have here : ∀ y ∈ [x], y.isSolid = true := fun y hy => List.mem_singleton.mp hy ▸ solid x holds
    obtain ⟨rest, rfl, _⟩ := h.behind here (show x :: more = [x] ++ more from rfl)
    exact ends ⟨x, rfl, holds⟩

end Text.Breaks

section
variable {rest' rest : Text} (breaks : Text.Breaks rest' rest)
include breaks

theorem Decimals.of_breaks {piece : Text} (h : Decimals piece rest) : Decimals piece rest' := by
  have ends : ∀ {t' t : Text}, Text.Breaks t' t → ¬ t.Begins CodePoint.isDecimal →
      ¬ t'.Begins CodePoint.isDecimal :=
    fun breaks => breaks.not_begins fun _ => CodePoint.isSolid_of_isDecimal
  cases h with
  | whole some all longest point =>
    refine .whole some all (ends breaks longest) fun more e => ?_
    have isPoint : ∀ x ∈ [.scalar '.'], CodePoint.isSolid x = true := by decide
    obtain ⟨_, rfl, further⟩ := breaks.behind isPoint (show rest' = [.scalar '.'] ++ more from e)
    exact ends further (point _ rfl)
  | fraction some all someMore allMore longest =>
    exact .fraction some all someMore allMore (ends breaks longest)

/-- what a token of a class is in front of a text, it is in front of one that breaks off -/
theorem Terminal.Matches.of_breaks {kind : Terminal} {piece : Text} (h : kind.Matches piece rest) :
    kind.Matches piece rest' := by
  cases h with
  | name isName whole =>
    exact .name isName (breaks.not_begins (fun _ => CodePoint.isSolid_of_isNamePart) whole)
  | string isQuote quoted => exact .string isQuote quoted
  | hexadecimal isX some all whole =>
    exact .hexadecimal isX some all (breaks.not_begins (fun _ => CodePoint.isSolid_of_isHexDigit) whole)
  | decimal isDecimal notHex =>
    refine .decimal (isDecimal.of_breaks breaks) fun x more isX e => ?_
    have solid : ∀ y ∈ [.scalar '0', .scalar x], CodePoint.isSolid y = true := by
      rcases isX with rfl | rfl <;> decide
    obtain ⟨more', e', further⟩ := (breaks.append piece).behind solid e
    exact further.not_begins (fun _ => CodePoint.isSolid_of_isHexDigit) (notHex x more' isX e')
  | negative isDecimal => exact .negative (isDecimal.of_breaks breaks)
  | spelled spelling => exact .spelled spelling

end

/-! ## Tokens -/

namespace Pattern

/-- a word is a name, and goes as far as it can -/
theorem name_spec {t piece rest : Text} (h : name t = some (piece, rest)) :
    piece.isName = true ∧ ¬ rest.Begins CodePoint.isNamePart := by
  have isToken := matches_of_name h
  generalize e : Terminal.NAME = kind at isToken
  cases isToken with
  | name isName whole => exact ⟨isName, whole⟩
  | spelled spelling =>
    subst e
    cases spelling
  | _ => cases e

theorem not_isNameStart_of_name {x : CodePoint} {t : Text} (h : name (x :: t) = none) :
    x.isNameStart = false := by
  rw [name] at h
  split at h
  · cases h
  · exact Bool.eq_false_iff.mpr ‹_›

end Pattern

namespace Token
variable {admitted : Terminal → Bool} {kind : Terminal} {piece rest rest' : Text}

/-- what is read is a word, quoted text, a numeral, or else a keyword or a punctuation mark -/
theorem read?_cases {t : Text} (h : read? admitted t = some (kind, piece, rest)) :
    admitted .NAME = true ∧ Pattern.name t = some (piece, rest) ∧
        kind = Terminal.ofWord admitted piece ∨
      kind = .STRING ∧ admitted .STRING = true ∧ Pattern.quoted t = some (piece, rest) ∨
      kind = .NUMERAL ∧ admitted .NUMERAL = true ∧ Pattern.numeral t = some (piece, rest) ∨
      (admitted .NAME = true → Pattern.name t = none) ∧ spelled admitted t = some (kind, piece, rest) := by
  rw [read?, Option.or_eq_some_iff] at h
  rcases h with h | ⟨noClass, h⟩
  · rw [classed] at h
    simp only [Option.or_eq_some_iff] at h
    rcases h with (h | ⟨_, h⟩) | ⟨_, h⟩
    · split at h
      · obtain ⟨p, found, e⟩ := Option.map_eq_some_iff.mp h
        cases e
        exact .inl ⟨‹_›, found, rfl⟩
      · cases h
    · split at h
      · obtain ⟨p, found, e⟩ := Option.map_eq_some_iff.mp h
        cases e
        exact .inr (.inl ⟨rfl, ‹_›, found⟩)
      · cases h
    · split at h
      · obtain ⟨p, found, e⟩ := Option.map_eq_some_iff.mp h
        cases e
        exact .inr (.inr (.inl ⟨rfl, ‹_›, found⟩))
      · cases h
  · refine .inr (.inr (.inr ⟨fun name => ?_, h⟩))
    rw [classed, Option.or_eq_none_iff, Option.or_eq_none_iff, if_pos name,
      Option.map_eq_none_iff] at noClass
    exact noClass.1.1

/-- a keyword or punctuation mark is the longest one in front of a text that breaks off, too -/
theorem spelled_of_breaks (h : spelled admitted (piece ++ rest) = some (kind, piece, rest))
    (breaks : Text.Breaks rest' rest) :
    spelled admitted (piece ++ rest') = some (kind, piece, rest') := by
  obtain ⟨before, k, later, split, here, others⟩ := List.findSome?_eq_some_iff.mp h
  obtain ⟨word, spelling, rfl⟩ := exists_spelling h
  refine List.findSome?_eq_some_iff.mpr ⟨before, k, later, split, ?_, fun u hu => ?_⟩
  · split at here
    · rename_i isOpen
      obtain ⟨_, _, found⟩ := Option.bind_eq_some_iff.mp here
      obtain ⟨_, _, e⟩ := Option.map_eq_some_iff.mp found
      obtain ⟨rfl, _⟩ := Prod.mk.inj e
      rw [if_pos isOpen, spelling, Option.bind_some, Pattern.exactly, Pattern.after?_append]
      rfl
    · cases here
  · have other := others u hu
    split
    · rename_i isOpen
      rw [if_pos isOpen] at other
      cases hs : u.spelling? with
      | none => rfl
      | some s =>
        rw [hs, Option.bind_some, Option.map_eq_none_iff, Pattern.exactly, Option.map_eq_none_iff] at other
        rw [Option.bind_some, Option.map_eq_none_iff, Pattern.exactly, Option.map_eq_none_iff,
          Option.eq_none_iff_forall_ne_some]
        intro more found
        -- the longer spelling would stand in front of the whole text, too
        obtain ⟨more', e, _⟩ := (breaks.append word).behind (CodePoint.isSolid_of_spelling hs)
          (Pattern.append_of_after? found).symm
        rw [e, Pattern.after?_append] at other
        cases other
    · rfl

/-- a token that is read in front of a text is read in front of one that breaks off -/
theorem read?_of_breaks (h : read? admitted (piece ++ rest) = some (kind, piece, rest))
    (breaks : Text.Breaks rest' rest) :
    read? admitted (piece ++ rest') = some (kind, piece, rest') := by
  have isToken := (matches_of_read? h).1.of_breaks breaks
  rcases read?_cases h with ⟨isOpen, found, rfl⟩ | ⟨rfl, isOpen, _⟩ | ⟨rfl, isOpen, _⟩ | ⟨noName, found⟩
  · obtain ⟨isName, whole⟩ := Pattern.name_spec found
    have whole' := breaks.not_begins (fun _ => CodePoint.isSolid_of_isNamePart) whole
    rw [read?, classed, if_pos isOpen, Pattern.name_append isName whole']
    rfl
  · refine read?_of_matches isToken isOpen ?_ ?_
    · rintro ⟨⟩
    · rintro ⟨_, _, ⟨⟩⟩
  · exact read?_numeral isToken isOpen
  · obtain ⟨word, spelling, rfl⟩ := exists_spelling found
    obtain ⟨y, more, e, _, _, double, single, digit, minus, _⟩ := Terminal.spelling_first spelling
    have none : classed admitted (word ++ rest') = .none := by
      rw [e, List.cons_append] at noName ⊢
      refine classed_eq_none (fun name => ?_) (Pattern.quoted_eq_none double single)
        (Pattern.numeral_eq_none digit minus)
      exact Pattern.name_eq_none (Pattern.not_isNameStart_of_name (noName name))
    rw [read?, none, Option.none_or]
    exact spelled_of_breaks found breaks

end Token

end Typings
