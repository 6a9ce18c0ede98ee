import Typings.Proofs.Grammar.Decisions
/-!
# What follows a place

What the table holds to follow a place is what can come there: a terminal that the state behind the
phrase reads, or one that follows a longer phrase which ends with this one.

* `Automaton.Continues`             what can come behind a place;
* `Automaton.handOn_follows`        the rounds of handing on come to an end;
* `Automaton.mem_follows_iff`       the table holds what can come, and nothing else;
* `Automaton.action_of_continues`   so a state reduces by the production whose dot is at its end.
-/

namespace Typings

namespace Automaton
open ItemSet (countP_lt)

/-- a terminal can come behind a phrase that is read in a state -/
inductive Continues : Nat → Nonterminal → Terminal → Prop
  | file : Continues 0 .file .END
  | next {state behind after : Nat} {n : Nonterminal} {t : Terminal}
      (step : next? state (.nonterminal n) = some behind)
      (reads : next? behind (.terminal t) = some after) : Continues state n t
  | last {start state behind : Nat} {p : Production} {front : List Symbol} {n : Nonterminal}
      {t : Terminal} (mem : p ∈ productions) (rhs : p.rhs = front ++ [.nonterminal n])
      (walk : walk? start front = some state) (step : next? state (.nonterminal n) = some behind)
      (longer : Continues start p.lhs t) : Continues state n t

/-! ## Sets of terminals -/

/-- all bits of a set are those of terminals -/
def Proper (set : TerminalSet) : Prop := ∀ k, set.bits.testBit k = true → ∃ t : Terminal, t.index = k

namespace Proper

theorem empty : Proper .empty := fun k h => by
  rw [TerminalSet.empty, Nat.zero_testBit] at h
  cases h

theorem insert {set : TerminalSet} (h : Proper set) (t : Terminal) : Proper (set.insert t) := by
  intro k hk
  rw [TerminalSet.insert, Nat.testBit_or, Bool.or_eq_true] at hk
  rcases hk with hk | hk
  · exact h k hk
  · exact ⟨t, ((testBit_one_shiftLeft _ _).mp hk).symm⟩

theorem union {set set' : TerminalSet} (h : Proper set) (h' : Proper set') :
    Proper (set.union set') := by
  intro k hk
  rw [TerminalSet.union, Nat.testBit_or, Bool.or_eq_true] at hk
  exact hk.elim (h k) (h' k)

theorem eq_of_contains {set set' : TerminalSet} (h : Proper set) (h' : Proper set')
    (same : ∀ t, set.contains t = set'.contains t) : set = set' := by
  have bits : set.bits = set'.bits := by
    refine Nat.eq_of_testBit_eq fun k => ?_
    by_cases terminal : ∃ t : Terminal, t.index = k
    · obtain ⟨t, rfl⟩ := terminal
      exact same t
    · rw [Bool.eq_false_iff.mpr fun e => terminal (h k e),
        Bool.eq_false_iff.mpr fun e => terminal (h' k e)]
  cases set
  cases set'
  exact congrArg TerminalSet.mk bits

end Proper

/-- a set of terminals is contained in another -/
def Within (a b : TerminalSet) : Prop := ∀ t, a.contains t = true → b.contains t = true

/-- the terminals that are not in a set -/
def lacking (set : TerminalSet) : Nat := Terminal.all.countP fun t => !set.contains t

theorem eq_or_lacking_lt {a b : TerminalSet} (ha : Proper a) (hb : Proper b) (h : Within a b) :
    a = b ∨ lacking b < lacking a := by
  by_cases same : ∀ t, b.contains t = true → a.contains t = true
  · exact .inl (ha.eq_of_contains hb fun t => Bool.eq_iff_iff.mpr ⟨h t, same t⟩)
  · right
    obtain ⟨t, ht⟩ := not_forall.mp same
    obtain ⟨tb, ta⟩ := Classical.not_imp.mp ht
    refine countP_lt (fun u _ hu => ?_) (Terminal.mem_all t) ?_ ?_
    · rw [Bool.not_eq_true'] at hu ⊢
      exact Bool.eq_false_iff.mpr fun e => Bool.eq_false_iff.mp hu (h u e)
    · rw [Bool.not_eq_true']
      exact Bool.eq_false_iff.mpr ta
    · rw [tb]
      rfl

/-- the terminals that are not in the sets of a list, each set counted by itself -/
def lackingAll (sets : List TerminalSet) : Nat := (sets.map lacking).sum

theorem eq_or_lackingAll_lt {as bs : List TerminalSet} (ha : ∀ a ∈ as, Proper a)
    (hb : ∀ b ∈ bs, Proper b) (h : List.Forall₂ Within as bs) :
    as = bs ∨ lackingAll bs < lackingAll as := by
  induction h with
  | nil => exact .inl rfl
  | @cons a b as bs here _ ih =>
    obtain ⟨ha, has⟩ := List.forall_mem_cons.mp ha
    obtain ⟨hb, hbs⟩ := List.forall_mem_cons.mp hb
    have first := eq_or_lacking_lt ha hb here
    have rest := ih has hbs
    unfold lackingAll at rest ⊢
    rw [List.map_cons, List.map_cons, List.sum_cons, List.sum_cons]
    rcases first with rfl | less
    · rcases rest with rfl | less
      · exact .inl rfl
      · exact .inr (by omega)
    · rcases rest with rfl | less'
      · exact .inr (by omega)
      · exact .inr (by omega)

theorem lackingAll_le (sets : List TerminalSet) :
    lackingAll sets ≤ sets.length * Terminal.all.length := by
  unfold lackingAll
  induction sets with
  | nil => exact Nat.zero_le _
  | cons set sets ih =>
    rw [List.map_cons, List.sum_cons, List.length_cons, Nat.succ_mul, Nat.add_comm]
    exact Nat.add_le_add ih List.countP_le_length

/-! ## Rounds -/

theorem contains_foldl_union (sets : List TerminalSet) (origins : List Nat) (set : TerminalSet)
    (t : Terminal) :
    (origins.foldl (fun set i => set.union (sets[i]?.getD .empty)) set).contains t = true ↔
      set.contains t = true ∨
        ∃ j ∈ origins, ∃ other, sets[j]? = some other ∧ other.contains t = true := by
  induction origins generalizing set with
  | nil => simp
  | cons j rest ih =>
    rw [List.foldl_cons, ih, TerminalSet.contains_union, Bool.or_eq_true, or_assoc]
    simp only [List.mem_cons, exists_eq_or_imp]
    cases sets[j]? with
    | none => simp
    | some other => simp

theorem sources_length : sources.length = places.length := by
  rw [sources]
  exact List.length_map ..

/-- the places that a place takes over from are those whose phrases it ends -/
theorem mem_sources {i j : Nat} {place : Nat × Nonterminal} {origins : List Nat}
    (hi : places[i]? = some place) (ho : sources[i]? = some origins) :
    j ∈ origins ↔ ∃ origin, places[j]? = some origin ∧ place ∈ endings origin := by
  rw [sources, List.getElem?_map, hi] at ho
  cases ho
  constructor
  · intro h
    obtain ⟨⟨ending, _⟩, hlink, rfl⟩ := List.mem_map.mp h
    obtain ⟨hlink, same⟩ := List.mem_filter.mp hlink
    obtain ⟨⟨origin, k⟩, hk, hlink⟩ := List.mem_flatMap.mp hlink
    obtain ⟨_, hend, e⟩ := List.mem_map.mp hlink
    cases e
    rw [List.mem_zipIdx_iff_getElem?] at hk
    exact ⟨origin, hk, eq_of_beq same ▸ hend⟩
  · rintro ⟨origin, hj, hend⟩
    refine List.mem_map.mpr ⟨(place, j), List.mem_filter.mpr ⟨?_, beq_self_eq_true _⟩, rfl⟩
    refine List.mem_flatMap.mpr ⟨(origin, j), ?_, List.mem_map_of_mem hend⟩
    exact List.mem_zipIdx_iff_getElem?.mpr hj

theorem handOn_length {sets : List TerminalSet} (h : sets.length = places.length) :
    (handOn sets).length = places.length := by
  rw [handOn, List.length_map, List.length_zip, sources_length, h, Nat.min_self]

/-- a round adds to a place what follows the places whose phrases it ends -/
theorem contains_handOn {sets : List TerminalSet} {i : Nat} {place : Nat × Nonterminal}
    {set set' : TerminalSet} (hi : places[i]? = some place) (hs : sets[i]? = some set)
    (hs' : (handOn sets)[i]? = some set') (t : Terminal) :
    set'.contains t = true ↔ set.contains t = true ∨
      ∃ (j : Nat) (origin : Nat × Nonterminal) (other : TerminalSet),
        places[j]? = some origin ∧ place ∈ endings origin ∧ sets[j]? = some other ∧ other.contains t = true := by
  rw [handOn, List.getElem?_map] at hs'
  obtain ⟨⟨old, origins⟩, hzip, rfl⟩ := Option.map_eq_some_iff.mp hs'
  rw [List.getElem?_zip_eq_some] at hzip
  obtain ⟨hold, ho⟩ := hzip
  rw [hs] at hold
  cases hold
  rw [contains_foldl_union]
  refine or_congr_right ?_
  constructor
  · rintro ⟨j, hj, other, hother, ht⟩
    obtain ⟨origin, horigin, hend⟩ := (mem_sources hi ho).mp hj
    exact ⟨j, origin, other, horigin, hend, hother, ht⟩
  · rintro ⟨j, origin, other, horigin, hend, hother, ht⟩
    exact ⟨j, (mem_sources hi ho).mpr ⟨origin, horigin, hend⟩, other, hother, ht⟩

theorem forall_mem_handOn {sets : List TerminalSet} (h : ∀ set ∈ sets, Proper set) :
    ∀ set ∈ handOn sets, Proper set := by
  intro set hset
  obtain ⟨⟨old, origins⟩, hzip, rfl⟩ := List.mem_map.mp hset
  have start := h old (List.of_mem_zip hzip).1
  clear hzip hset
  induction origins generalizing old with
  | nil => exact start
  | cons j rest ih =>
    refine ih _ (start.union ?_)
    cases hj : sets[j]? with
    | none => exact .empty
    | some other => exact h other (List.mem_of_getElem? hj)

theorem within_handOn {sets : List TerminalSet} (h : sets.length = places.length) :
    List.Forall₂ Within sets (handOn sets) := by
  refine List.forall₂_iff_get.mpr ⟨h.trans (handOn_length h).symm, fun i hi hi' t ht => ?_⟩
  have hp : places[i]? = some places[i] := List.getElem?_eq_getElem (h ▸ hi)
  exact (contains_handOn hp (List.getElem?_eq_getElem hi) (List.getElem?_eq_getElem hi') t).mpr
    (.inl ht)

/-- with fuel for all terminals that are lacking, the rounds come to an end -/
theorem handOn_settle {fuel : Nat} {sets : List TerminalSet} (len : sets.length = places.length)
    (proper : ∀ set ∈ sets, Proper set) (enough : lackingAll sets ≤ fuel) :
    handOn (settle fuel sets) = settle fuel sets := by
  induction fuel generalizing sets with
  | zero =>
    rcases eq_or_lackingAll_lt proper (forall_mem_handOn proper) (within_handOn len) with e | less
    · exact e.symm
    · omega
  | succ fuel ih =>
    simp only [settle]
    split
    · assumption
    · rename_i grows
      refine ih (handOn_length len) (forall_mem_handOn proper) ?_
      rcases eq_or_lackingAll_lt proper (forall_mem_handOn proper) (within_handOn len) with e | less
      · exact absurd e.symm grows
      · omega

/-- what the rounds keep holds at their end -/
theorem settle_induction {P : List TerminalSet → Prop} (round : ∀ sets, P sets → P (handOn sets))
    (fuel : Nat) {sets : List TerminalSet} (h : P sets) : P (settle fuel sets) := by
  induction fuel generalizing sets with
  | zero => exact h
  | succ fuel ih =>
    simp only [settle]
    split
    · exact h
    · exact ih (round sets h)

theorem proper_readable (state : Nat) : Proper (readable state) := by
  unfold readable
  refine List.foldlRecOn _ _ .empty fun set h st _ => ?_
  obtain ⟨s, next⟩ := st
  cases s with
  | terminal t => exact h.insert t
  | nonterminal n => exact h

theorem proper_directFollow (place : Nat × Nonterminal) : Proper (directFollow place) := by
  unfold directFollow
  split
  · exact Proper.empty.insert .END
  · split
    · exact proper_readable _
    · exact .empty

/-- the rounds of handing on come to an end -/
theorem handOn_follows : handOn follows = follows := by
  rw [follows]
  have len : (places.map directFollow).length = places.length := List.length_map ..
  refine handOn_settle len (fun set hset => ?_) ?_
  · obtain ⟨place, _, rfl⟩ := List.mem_map.mp hset
    exact proper_directFollow place
  · rw [← len]
    exact lackingAll_le _

theorem follows_length : follows.length = places.length := by
  rw [follows]
  exact settle_induction (P := fun sets => sets.length = places.length)
    (fun _ h => handOn_length h) _ (List.length_map ..)

/-! ## What is read right behind a phrase -/

theorem contains_foldl_insert (reads : List (Symbol × Nat)) (set : TerminalSet) (t : Terminal) :
    (reads.foldl (fun set st => match st.1 with
      | .terminal t => set.insert t
      | .nonterminal _ => set) set).contains t = true ↔
        set.contains t = true ∨ ∃ st ∈ reads, st.1 = .terminal t := by
  induction reads generalizing set with
  | nil => simp
  | cons st rest ih =>
    obtain ⟨s, next⟩ := st
    rw [List.foldl_cons, ih, List.exists_mem_cons_iff]
    cases s with
    | terminal u =>
      show (set.insert u).contains t = true ∨ _ ↔ _
      rw [TerminalSet.contains_insert, Bool.or_eq_true, decide_eq_true_iff, or_assoc,
        Symbol.terminal.injEq]
    | nonterminal n =>
      refine or_congr_right ?_
      constructor
      · exact .inr
      · rintro (e | h)
        · cases e
        · exact h

theorem contains_readable (state : Nat) (t : Terminal) :
    (readable state).contains t = true ↔ ∃ next, next? state (.terminal t) = some next := by
  refine (contains_foldl_insert (transitions[state]?.getD []) .empty t).trans ?_
  rw [TerminalSet.contains_empty, next?, nth?_eq_getElem?]
  cases transitions[state]? with
  | none => simp
  | some reads =>
    show (false = true ∨ ∃ st ∈ reads, st.1 = .terminal t) ↔ ∃ next, reads.lookup _ = some next
    rw [← Option.isSome_iff_exists, List.lookup_isSome_iff]
    constructor
    · rintro (h | ⟨st, hst, e⟩)
      · cases h
      · exact ⟨st, hst, beq_iff_eq.mpr e.symm⟩
    · rintro ⟨st, hst, e⟩
      exact .inr ⟨st, hst, (eq_of_beq e).symm⟩

/-! ## Places -/

theorem mem_places_of_next {state next : Nat} {n : Nonterminal}
    (h : next? state (.nonterminal n) = some next) : (state, n) ∈ places := by
  rw [next?, nth?_eq_getElem?] at h
  obtain ⟨reads, hreads, h⟩ := Option.bind_eq_some_iff.mp h
  have found : (reads.lookup (.nonterminal n)).isSome := by rw [h]; rfl
  obtain ⟨st, hst, e⟩ := List.lookup_isSome_iff.mp found
  have e := eq_of_beq e
  obtain ⟨s, next'⟩ := st
  cases e
  rw [places]
  refine List.mem_cons_of_mem _ (List.mem_flatMap.mpr ⟨(reads, state), ?_, ?_⟩)
  · exact List.mem_zipIdx_iff_getElem?.mpr hreads
  · exact List.mem_filterMap.mpr ⟨_, hst, rfl⟩

theorem Continues.place {state : Nat} {n : Nonterminal} {t : Terminal} (h : Continues state n t) :
    (state, n) ∈ places := by
  cases h with
  | file =>
    rw [places]
    exact List.mem_cons_self
  | next step reads => exact mem_places_of_next step
  | last mem rhs walk step longer => exact mem_places_of_next step

theorem ne_file_of_next {state next : Nat} {n : Nonterminal}
    (h : next? state (.nonterminal n) = some next) : n ≠ .file := by
  rintro rfl
  obtain ⟨_, p, i, item, hi⟩ := exists_item_of_next h
  exact file_not_mem_rhs p item.mem_productions (List.mem_of_getElem? hi)

theorem splitLast?_append (front : List Symbol) (s : Symbol) :
    splitLast? (front ++ [s]) = some (front, s) := by
  induction front with
  | nil => rfl
  | cons x front ih =>
    cases front with
    | nil => rfl
    | cons y front =>
      show (splitLast? (y :: front ++ [s])).map _ = _
      rw [ih]
      rfl

/-- the places whose phrase ends a production that is read from a place -/
theorem mem_endings {start state : Nat} {m n : Nonterminal} :
    (state, n) ∈ endings (start, m) ↔ ∃ p ∈ productions, p.lhs = m ∧
      ∃ front, p.rhs = front ++ [.nonterminal n] ∧ walk? start front = some state := by
  rw [endings, List.mem_filterMap]
  constructor
  · rintro ⟨p, mem, h⟩
    split at h
    · rename_i lhs
      split at h
      · rename_i front n' e
        obtain ⟨_, walk, e'⟩ := Option.map_eq_some_iff.mp h
        cases e'
        exact ⟨p, mem, lhs, front, eq_append_of_splitLast? e, walk⟩
      · cases h
    · cases h
  · rintro ⟨p, mem, lhs, front, rhs, walk⟩
    refine ⟨p, mem, ?_⟩
    rw [if_pos lhs, rhs, splitLast?_append]
    show (walk? start front).map _ = _
    rw [walk]
    rfl

/-! ## What the table holds -/

/-- every set of a list holds only what can come behind its place -/
def Sound (sets : List TerminalSet) : Prop :=
  ∀ (i state : Nat) (n : Nonterminal) (set : TerminalSet), places[i]? = some (state, n) →
    sets[i]? = some set → ∀ t, set.contains t = true → Continues state n t

theorem sound_directFollow : Sound (places.map directFollow) := by
  intro i state n set hi hs t ht
  rw [List.getElem?_map, hi] at hs
  cases hs
  rw [directFollow] at ht
  split at ht
  · rename_i isFile
    have isFile : n = .file := isFile
    subst isFile
    have isEnd : t = .END := by
      revert ht
      cases t <;> decide
    rcases mem_places (List.mem_of_getElem? hi) with ⟨rfl, _⟩ | ⟨next, step⟩
    · rw [isEnd]
      exact .file
    · exact absurd rfl (ne_file_of_next step)
  · split at ht
    · rename_i behind step
      obtain ⟨after, reads⟩ := (contains_readable _ t).mp ht
      exact .next step reads
    · rw [TerminalSet.contains_empty] at ht
      cases ht

theorem sound_handOn {sets : List TerminalSet} (len : sets.length = places.length)
    (h : Sound sets) : Sound (handOn sets) := by
  intro i state n set hi hs t ht
  have hlt := (List.getElem?_eq_some_iff.mp hi).1
  have old : sets[i]? = some sets[i] := List.getElem?_eq_getElem (len ▸ hlt)
  rcases (contains_handOn hi old hs t).mp ht with ht | ⟨j, origin, other, hj, hend, hother, ht⟩
  · exact h i state n _ hi old t ht
  · obtain ⟨start, m⟩ := origin
    obtain ⟨p, mem, rfl, front, rhs, walk⟩ := mem_endings.mp hend
    rcases mem_places (List.mem_of_getElem? hi) with ⟨_, isFile⟩ | ⟨next, step⟩
    · exact absurd isFile (ne_file_of_mem_endings hend)
    · exact .last mem rhs walk step (h j start p.lhs other hj hother t ht)

theorem sound_follows : Sound follows := by
  rw [follows]
  refine (settle_induction (P := fun sets => sets.length = places.length ∧ Sound sets)
    (fun _ h => ⟨handOn_length h.1, sound_handOn h.1 h.2⟩) _
    ⟨List.length_map .., sound_directFollow⟩).2

theorem within_settle (fuel : Nat) {sets : List TerminalSet} {i : Nat} {place : Nat × Nonterminal}
    {set : TerminalSet} (len : sets.length = places.length) (hi : places[i]? = some place)
    (hs : sets[i]? = some set) :
    ∃ set', (settle fuel sets)[i]? = some set' ∧ Within set set' := by
  induction fuel generalizing sets set with
  | zero => exact ⟨set, hs, fun _ h => h⟩
  | succ fuel ih =>
    simp only [settle]
    split
    · exact ⟨set, hs, fun _ h => h⟩
    · have hlt : i < (handOn sets).length :=
        handOn_length len ▸ (List.getElem?_eq_some_iff.mp hi).1
      have next : (handOn sets)[i]? = some (handOn sets)[i] := List.getElem?_eq_getElem hlt
      obtain ⟨set', hs', within⟩ := ih (handOn_length len) next
      exact ⟨set', hs', fun t ht => within t ((contains_handOn hi hs next t).mpr (.inl ht))⟩

theorem follows_of_directFollow {i : Nat} {place : Nat × Nonterminal}
    (hi : places[i]? = some place) :
    ∃ set, follows[i]? = some set ∧ Within (directFollow place) set := by
  rw [follows]
  refine within_settle _ (List.length_map ..) hi ?_
  rw [List.getElem?_map, hi]
  rfl

/-- what can come behind a place is in every set of the table for the place -/
theorem follows_of_continues {state : Nat} {n : Nonterminal} {t : Terminal}
    (h : Continues state n t) {i : Nat} (hi : places[i]? = some (state, n)) :
    ∃ set, follows[i]? = some set ∧ set.contains t = true := by
  induction h generalizing i with
  | file =>
    obtain ⟨set, hs, within⟩ := follows_of_directFollow hi
    exact ⟨set, hs, within _ (by decide)⟩
  | next step reads =>
    obtain ⟨set, hs, within⟩ := follows_of_directFollow hi
    refine ⟨set, hs, within _ ?_⟩
    rw [directFollow, if_neg (ne_file_of_next step)]
    simp only [step]
    exact (contains_readable _ _).mpr ⟨_, reads⟩
  | @last start state behind p front n t mem rhs walk step longer ih =>
    obtain ⟨j, hj⟩ := List.mem_iff_getElem?.mp longer.place
    obtain ⟨other, hother, ht⟩ := ih hj
    have hlt : i < follows.length := follows_length ▸ (List.getElem?_eq_some_iff.mp hi).1
    have here : follows[i]? = some follows[i] := List.getElem?_eq_getElem hlt
    refine ⟨_, here, ?_⟩
    have hend : (state, n) ∈ endings (start, p.lhs) := mem_endings.mpr ⟨p, mem, rfl, front, rhs, walk⟩
    have round : (handOn follows)[i]? = some follows[i] := by rw [handOn_follows, here]
    exact (contains_handOn hi here round t).mpr (.inr ⟨j, _, other, hj, hend, hother, ht⟩)

/-- the table holds what can come behind a place, and nothing else -/
theorem mem_follows_iff {i state : Nat} {n : Nonterminal} {set : TerminalSet}
    (hi : places[i]? = some (state, n)) (hs : follows[i]? = some set) (t : Terminal) :
    set.contains t = true ↔ Continues state n t := by
  constructor
  · exact sound_follows i state n set hi hs t
  · intro h
    obtain ⟨set', hs', ht⟩ := follows_of_continues h hi
    rw [hs] at hs'
    cases hs'
    exact ht

/-! ## Reductions -/

/-- a reduction is there for every way to read a production from a place -/
theorem mem_reductions_of_walk {start state i : Nat} {p : Production} {set : TerminalSet}
    (mem : p ∈ productions) (hi : places[i]? = some (start, p.lhs)) (hs : follows[i]? = some set)
    (walk : walk? start p.rhs = some state) : (state, p, set) ∈ reductions := by
  rw [reductions, List.mem_flatMap]
  refine ⟨((start, p.lhs), set), ?_, List.mem_filterMap.mpr ⟨p, mem, ?_⟩⟩
  · exact List.mem_of_getElem? (List.getElem?_zip_eq_some.mpr ⟨hi, hs⟩)
  · rw [if_pos rfl, walk]
    rfl

/-- a state that has a reduction has its production with the dot at the end -/
theorem item_of_mem_reductions {state : Nat} {p : Production} {set : TerminalSet} {k : ItemSet}
    (h : (state, p, set) ∈ reductions) (hk : kernels[state]? = some k) :
    ∃ first, Item state first p p.rhs.length := by
  obtain ⟨mem, start, hplace, walk⟩ := mem_reductions h
  obtain ⟨first, item⟩ := item_of_place (List.of_mem_zip hplace).1 mem
  exact ⟨first, item.walk walk hk⟩

/-- at the end of a production, a terminal that can come behind its phrase and is not read reduces
by it -/
theorem action_of_continues {start state : Nat} {p : Production} {t : Terminal}
    (mem : p ∈ productions) (walk : walk? start p.rhs = some state)
    (continues : Continues start p.lhs t) (unread : next? state (.terminal t) = none) :
    action state t = some (.reduce p) := by
  obtain ⟨i, hi⟩ := List.mem_iff_getElem?.mp continues.place
  obtain ⟨set, hs, ht⟩ := follows_of_continues continues hi
  have here := mem_reductions_of_walk mem hi hs walk
  obtain ⟨k₀, hk₀⟩ : ∃ k, kernels[start]? = some k := by
    rcases mem_places continues.place with ⟨rfl, _⟩ | ⟨next, step⟩
    · exact ⟨_, kernels_zero⟩
    · obtain ⟨k, hk, _⟩ := next?_eq_some_iff.mp step
      exact ⟨k, hk⟩
  obtain ⟨k, hk⟩ := kernel_behind_walk hk₀ walk
  rw [action_eq, transitions_getElem?, hk]
  rw [next?, nth?_eq_getElem?, transitions_getElem?, hk] at unread
  have unread : List.lookup (Symbol.terminal t) _ = none := unread
  show rowAction state _ t = _
  rw [rowAction, unread]
  show Option.map _ (List.find? _ _) = _
  cases found : (reductions.filter fun r => r.1 == state).find? fun r => r.2.2.contains t with
  | none =>
    have none := List.find?_eq_none.mp found (state, p, set)
      (List.mem_filter.mpr ⟨here, beq_self_eq_true _⟩)
    exact absurd ht none
  | some r =>
    -- no other production is at its end in this state
    obtain ⟨s, q, set'⟩ := r
    have hr := List.mem_filter.mp (List.mem_of_find?_eq_some found)
    obtain rfl : s = state := eq_of_beq hr.2
    obtain ⟨f, item⟩ := item_of_mem_reductions here hk
    obtain ⟨g, item'⟩ := item_of_mem_reductions hr.1 hk
    rw [item.complete_unique item']
    rfl

/-- what is read is shifted -/
theorem action_of_next {state next : Nat} {t : Terminal}
    (h : next? state (.terminal t) = some next) : action state t = some (.shift next) := by
  rw [next?, nth?_eq_getElem?] at h
  obtain ⟨reads, hreads, h⟩ := Option.bind_eq_some_iff.mp h
  rw [action_eq, hreads]
  show rowAction state reads t = _
  rw [rowAction, h]

/-- a state only reduces with a terminal that it does not read -/
theorem unread_of_reduce {state : Nat} {t : Terminal} {p : Production}
    (h : action state t = some (.reduce p)) : next? state (.terminal t) = none := by
  cases hs : next? state (.terminal t) with
  | none => rfl
  | some next =>
    rw [action_of_next hs] at h
    cases h

/-! ## What comes behind a phrase anywhere -/

/-- what a state reads behind a phrase follows the phrase by the grammar -/
theorem follow_of_next {state behind after : Nat} {n : Nonterminal} {t : Terminal}
    (step : next? state (.nonterminal n) = some behind)
    (reads : next? behind (.terminal t) = some after) :
    (Lookahead.follow n).contains t = true := by
  obtain ⟨_, q, j, item, hj⟩ := exists_item_of_next reads
  obtain ⟨k, hk, has⟩ := item
  obtain ⟨k₀, hk₀, rfl⟩ := kernel_of_next step hk
  -- a dot behind the phrase hands on what it begins with to the dots that it brings in
  refine ItemSet.closure_induction (Q := fun _ q j => ∀ s, q.rhs[j]? = some s →
    (Lookahead.first s).contains t = true → (Lookahead.follow n).contains t = true)
    (fun f q j moved s hs first => ?_) (fun f q j g r has ih dot mem s hs first => ?_) has
    (.terminal t) hj (Lookahead.first_terminal t)
  · cases j with
    | zero => exact absurd moved ItemSet.not_has_advance_zero
    | succ j =>
      obtain ⟨has, hn⟩ := ItemSet.has_advance_succ.mp moved
      exact Lookahead.behind_next Lookahead.follow_closed (mem_productions_of_numbered has.mem)
        hn hs first
  · have head : r.rhs.head? = some s := by rw [List.head?_eq_getElem?, hs]
    exact ih _ dot (Lookahead.first_of_head (mem_productions_of_numbered mem) head first)

theorem Continues.follow {state : Nat} {n : Nonterminal} {t : Terminal}
    (h : Continues state n t) : (Lookahead.follow n).contains t = true := by
  induction h with
  | file => exact Lookahead.follow_closed.1
  | next step reads => exact follow_of_next step reads
  | last mem rhs walk step longer ih =>
    refine Lookahead.behind_last Lookahead.follow_closed mem ?_ ih (.inr (Lookahead.contains_all _))
    rw [rhs, List.getLast?_append]
    rfl

/-- a state only reduces with a terminal that follows the phrase by the grammar -/
theorem follow_of_reduce {state : Nat} {t : Terminal} {p : Production}
    (h : action state t = some (.reduce p)) : (Lookahead.follow p.lhs).contains t = true := by
  obtain ⟨set, mem, ht⟩ := action_reduce h
  obtain ⟨_, start, place, _⟩ := mem_reductions mem
  obtain ⟨i, hi⟩ := List.mem_iff_getElem?.mp place
  obtain ⟨hi, hs⟩ := List.getElem?_zip_eq_some.mp hi
  exact (sound_follows i start p.lhs set hi hs t ht).follow

end Automaton

end Typings
