import Typings.Proofs.Grammar.Items
/-!
# The items of a state

A state is told by its kernel.  Reading a symbol moves the dots of a state over it, so a dot inside
a right side tells the symbols that were read on the way to the state.

* `Automaton.Item state first p i`    the closure of a state has `p` with its dot behind `i` symbols;
* `Automaton.Item.next`, `Automaton.Item.forward`, `Automaton.Item.back`
                                      dots and transitions;
* `Automaton.item_of_reduce`          a production that a state reduces by has its dot at the end;
* `Automaton.end_of_reduce_file`      a whole file is only reduced at the end of the text.
-/

namespace Typings

theorem lookup_map_snd {α β γ : Type} [BEq α] (l : List (α × β)) (g : β → γ) (a : α) :
    (l.map fun kv => (kv.1, g kv.2)).lookup a = (l.lookup a).map g := by
  induction l with
  | nil => rfl
  | cons kv l ih =>
    obtain ⟨k, v⟩ := kv
    rw [List.map_cons, List.lookup_cons, List.lookup_cons, ih]
    cases a == k with
    | true => rfl
    | false => rfl

namespace Automaton
open ItemSet

/-! ## Kernels and transitions -/

theorem found_prefix_discover (fuel : Nat) (todo found : List ItemSet) :
    found <+: discover fuel todo found := by
  induction fuel generalizing todo found with
  | zero => exact List.prefix_rfl
  | succ fuel ih =>
    cases todo with
    | nil => exact List.prefix_rfl
    | cons kernel todo =>
      rw [discover]
      exact (List.prefix_append found _).trans (ih _ _)

theorem kernels_zero : kernels[0]? = some (startsOf .file) := by
  rw [kernels]
  obtain ⟨more, e⟩ := found_prefix_discover (Nat.pow 2 itemCount) [startsOf .file] [startsOf .file]
  rw [← e]
  rfl

theorem transitions_getElem? (state : Nat) :
    transitions[state]? =
      (kernels[state]?).map fun k => (successors k).map fun sk => (sk.1, kernels.idxOf sk.2) := by
  rw [transitions, List.getElem?_map]

/-- the state after a symbol is the one whose kernel reading the symbol makes -/
theorem next?_eq_some_iff {state next : Nat} {s : Symbol} :
    next? state s = some next ↔ ∃ k, kernels[state]? = some k ∧ advance k s ≠ 0 ∧
      next = kernels.idxOf (advance k s) := by
  rw [next?, nth?_eq_getElem?, transitions_getElem?]
  cases kernels[state]? with
  | none => simp
  | some k =>
    show List.lookup s ((successors k).map fun sk => (sk.1, kernels.idxOf sk.2)) = some next ↔ _
    rw [lookup_map_snd (successors k) (fun set => kernels.idxOf set) s, successors_lookup]
    by_cases h : advance k s = 0
    · rw [if_pos h]
      constructor
      · intro e
        cases e
      · rintro ⟨_, e, ne, _⟩
        cases e
        exact absurd h ne
    · rw [if_neg h]
      constructor
      · intro e
        cases e
        exact ⟨k, rfl, h, rfl⟩
      · rintro ⟨_, e, _, rfl⟩
        cases e
        rfl

theorem kernel_of_next {state next : Nat} {s : Symbol} {k : ItemSet}
    (h : next? state s = some next) (hk : kernels[next]? = some k) :
    ∃ k₀, kernels[state]? = some k₀ ∧ k = advance k₀ s := by
  obtain ⟨k₀, hk₀, _, rfl⟩ := next?_eq_some_iff.mp h
  obtain ⟨hlt, e⟩ := List.getElem?_eq_some_iff.mp hk
  rw [List.getElem_idxOf hlt] at e
  exact ⟨k₀, hk₀, e.symm⟩

theorem kernel_of_walk {state next : Nat} {symbols : List Symbol} {k : ItemSet}
    (h : walk? state symbols = some next) (hk : kernels[next]? = some k) :
    ∃ k₀, kernels[state]? = some k₀ := by
  cases symbols with
  | nil =>
    cases h
    exact ⟨k, hk⟩
  | cons s rest =>
    obtain ⟨middle, h, _⟩ := Option.bind_eq_some_iff.mp h
    obtain ⟨k₀, hk₀, _⟩ := next?_eq_some_iff.mp h
    exact ⟨k₀, hk₀⟩

theorem kernel_of_action {state : Nat} {t : Terminal} {a : Action} (h : action state t = some a) :
    ∃ k, kernels[state]? = some k := by
  rw [action_eq, transitions_getElem?] at h
  cases hk : kernels[state]? with
  | none =>
    rw [hk] at h
    cases h
  | some k => exact ⟨k, rfl⟩

/-! ## Items of a state -/

/-- the closure of a state has a production with its dot behind `i` symbols -/
def Item (state first : Nat) (p : Production) (i : Nat) : Prop :=
  ∃ k, kernels[state]? = some k ∧ Has (closure k) first p i

namespace Item

theorem next {state first i : Nat} {p : Production} {s : Symbol} (h : Item state first p i)
    (hi : p.rhs[i]? = some s) : ∃ next, next? state s = some next := by
  obtain ⟨k, hk, has⟩ := h
  have ne := (advance_ne_zero_iff k s).mpr (and_before_ne_zero has hi)
  exact ⟨_, next?_eq_some_iff.mpr ⟨k, hk, ne, rfl⟩⟩

theorem forward {state next first i : Nat} {p : Production} {s : Symbol} {k : ItemSet}
    (h : Item state first p i) (hi : p.rhs[i]? = some s) (hs : next? state s = some next)
    (hk : kernels[next]? = some k) : Item next first p (i + 1) := by
  obtain ⟨k₀, hk₀, has⟩ := h
  obtain ⟨k₁, hk₁, rfl⟩ := kernel_of_next hs hk
  rw [hk₀] at hk₁
  cases hk₁
  exact ⟨_, hk, has_closure (has_advance_succ.mpr ⟨has, hi⟩)⟩

theorem back {state next first i : Nat} {p : Production} {s : Symbol}
    (h : Item next first p (i + 1)) (hs : next? state s = some next) :
    Item state first p i ∧ p.rhs[i]? = some s := by
  obtain ⟨k, hk, has⟩ := h
  obtain ⟨k₀, hk₀, rfl⟩ := kernel_of_next hs hk
  obtain ⟨has, hi⟩ := has_advance_succ.mp (closure_succ has)
  exact ⟨⟨k₀, hk₀, has⟩, hi⟩

/-- a left-end item of a state behind a symbol was brought in by a dot in front of its phrase -/
theorem reached {state next first : Nat} {p : Production} {s : Symbol}
    (h : Item next first p 0) (hs : next? state s = some next) :
    ∃ f q j, Item next f q j ∧ q.rhs[j]? = some (.nonterminal p.lhs) := by
  obtain ⟨k, hk, has⟩ := h
  obtain ⟨k₀, _, rfl⟩ := kernel_of_next hs hk
  rcases closure_zero has with here | ⟨f, q, j, has, hj⟩
  · exact absurd here not_has_advance_zero
  · exact ⟨f, q, j, ⟨_, hk, has⟩, hj⟩

/-- no dot has moved in the first state -/
theorem not_initial {first i : Nat} {p : Production} : ¬ Item 0 first p (i + 1) := by
  rintro ⟨k, hk, has⟩
  rw [kernels_zero] at hk
  cases hk
  exact Nat.succ_ne_zero i (has_startsOf (closure_succ has)).1

/-- a left-end item of the first state is one of a file, or it was brought in -/
theorem initial {first : Nat} {p : Production} (h : Item 0 first p 0) :
    p.lhs = .file ∨ ∃ f q j, Item 0 f q j ∧ q.rhs[j]? = some (.nonterminal p.lhs) := by
  obtain ⟨k, hk, has⟩ := h
  have hk₀ := hk
  rw [kernels_zero] at hk₀
  cases hk₀
  rcases closure_zero has with here | ⟨f, q, j, has, hj⟩
  · exact .inl (has_startsOf here).2
  · exact .inr ⟨f, q, j, ⟨_, hk, has⟩, hj⟩

theorem mem_productions {state first i : Nat} {p : Production} (h : Item state first p i) :
    p ∈ productions := by
  obtain ⟨_, _, has⟩ := h
  exact mem_productions_of_numbered has.mem

theorem le {state first i : Nat} {p : Production} (h : Item state first p i) :
    i ≤ p.rhs.length := by
  obtain ⟨_, _, has⟩ := h
  exact has.le

/-- the dot of an item moves over the symbols that are read -/
theorem walk {state next first i : Nat} {p : Production} {k : ItemSet} (h : Item state first p i)
    (hs : walk? state (p.rhs.drop i) = some next) (hk : kernels[next]? = some k) :
    Item next first p p.rhs.length := by
  generalize e : p.rhs.drop i = rest at hs
  induction rest generalizing state i with
  | nil =>
    cases hs
    have hi : i = p.rhs.length := Nat.le_antisymm h.le (List.drop_eq_nil_iff.mp e)
    rw [← hi]
    exact h
  | cons s rest ih =>
    obtain ⟨middle, hm, hs⟩ := Option.bind_eq_some_iff.mp hs
    have hi : p.rhs[i]? = some s := by
      rw [← List.head?_drop, e]
      rfl
    have hrest : p.rhs.drop (i + 1) = rest := by
      rw [← List.tail_drop, e]
      rfl
    obtain ⟨_, hkm⟩ := kernel_of_walk hs hk
    exact ih (h.forward hi hm hkm) hrest hs

end Item

/-! ## Symbols that no production has on its right -/

theorem eq_file_of_rhs_nil : ∀ p ∈ productions, p.rhs = [] → p.lhs = .file := by
  decide +kernel

theorem file_not_mem_rhs : ∀ p ∈ productions, Symbol.nonterminal .file ∉ p.rhs := by
  decide +kernel

theorem end_not_mem_rhs : ∀ p ∈ productions, Symbol.terminal .END ∉ p.rhs := by
  decide +kernel

theorem exists_item_of_next {state next : Nat} {s : Symbol} (h : next? state s = some next) :
    ∃ f p i, Item state f p i ∧ p.rhs[i]? = some s := by
  obtain ⟨k, hk, ne, _⟩ := next?_eq_some_iff.mp h
  obtain ⟨f, p, i, has, hi⟩ := has_before ((advance_ne_zero_iff k s).mp ne)
  exact ⟨f, p, i, ⟨k, hk, has⟩, hi⟩

theorem next?_end (state : Nat) : next? state (.terminal .END) = none := by
  cases h : next? state (.terminal .END) with
  | none => rfl
  | some next =>
    obtain ⟨_, p, i, item, hi⟩ := exists_item_of_next h
    exact absurd (List.mem_of_getElem? hi) (end_not_mem_rhs p item.mem_productions)

/-! ## Reductions -/

theorem mem_places {start : Nat} {n : Nonterminal} (h : (start, n) ∈ places) :
    (start = 0 ∧ n = .file) ∨ ∃ next, next? start (.nonterminal n) = some next := by
  rw [places] at h
  rcases List.mem_cons.mp h with e | h
  · cases e
    exact .inl ⟨rfl, rfl⟩
  · right
    obtain ⟨⟨reads, i⟩, hreads, h⟩ := List.mem_flatMap.mp h
    obtain ⟨⟨s, next⟩, hs, h⟩ := List.mem_filterMap.mp h
    cases s with
    | terminal t => cases h
    | nonterminal m =>
      cases h
      rw [List.mem_zipIdx_iff_getElem?] at hreads
      have found : (reads.lookup (.nonterminal n)).isSome :=
        List.lookup_isSome_iff.mpr ⟨_, hs, beq_self_eq_true _⟩
      rw [next?, nth?_eq_getElem?, hreads]
      exact Option.isSome_iff_exists.mp found

/-- a place has the left-end items of its phrase -/
theorem item_of_place {start : Nat} {p : Production} (h : (start, p.lhs) ∈ places) (mem : p ∈ productions) :
    ∃ first, Item start first p 0 := by
  obtain ⟨first, hfirst⟩ := exists_numbered mem
  refine ⟨first, ?_⟩
  rcases mem_places h with ⟨rfl, isFile⟩ | ⟨next, hnext⟩
  · refine ⟨startsOf .file, kernels_zero, has_closure ⟨hfirst, Nat.zero_le _, ?_⟩⟩
    exact (testBit_startsOf _ _).mpr ⟨p, hfirst, isFile⟩
  · obtain ⟨f, q, j, ⟨k', hk', has⟩, hj⟩ := exists_item_of_next hnext
    exact ⟨k', hk', closure_closed has hj hfirst⟩

/-- a file can begin with any of its productions -/
theorem item_of_file {p : Production} (isFile : p.lhs = .file) (mem : p ∈ productions) :
    ∃ first, Item 0 first p 0 := by
  refine item_of_place ?_ mem
  rw [isFile, places]
  exact List.mem_cons_self

/-- a state only reduces by a production that it has with the dot at the end -/
theorem item_of_reduce {state : Nat} {t : Terminal} {p : Production}
    (h : action state t = some (.reduce p)) : ∃ first, Item state first p p.rhs.length := by
  obtain ⟨k, hk⟩ := kernel_of_action h
  obtain ⟨set, mem, _⟩ := action_reduce h
  obtain ⟨memp, start, hplace, hwalk⟩ := mem_reductions mem
  obtain ⟨first, item⟩ := item_of_place (List.of_mem_zip hplace).1 memp
  exact ⟨first, item.walk hwalk hk⟩

/-! ## The end of the text -/

theorem eq_append_of_splitLast? {symbols front : List Symbol} {s : Symbol}
    (h : splitLast? symbols = some (front, s)) : symbols = front ++ [s] := by
  induction symbols generalizing front with
  | nil => cases h
  | cons x rest ih =>
    cases rest with
    | nil =>
      cases h
      rfl
    | cons y rest =>
      obtain ⟨⟨front', s'⟩, later, e⟩ := Option.map_eq_some_iff.mp h
      cases e
      rw [ih later]
      rfl

/-- no longer phrase ends with a whole file -/
theorem ne_file_of_mem_endings {place : Nat × Nonterminal} {start : Nat} {n : Nonterminal}
    (h : (start, n) ∈ endings place) : n ≠ .file := by
  obtain ⟨p, mem, h⟩ := List.mem_filterMap.mp h
  split at h
  · split at h
    · rename_i front m split
      obtain ⟨_, _, e⟩ := Option.map_eq_some_iff.mp h
      cases e
      rintro rfl
      apply file_not_mem_rhs p mem
      rw [eq_append_of_splitLast? split]
      exact List.mem_append_right _ List.mem_cons_self
    · cases h
  · cases h

theorem sources_of_file {i start : Nat} {from' : List Nat} (hi : places[i]? = some (start, .file))
    (h : sources[i]? = some from') : from' = [] := by
  rw [sources, List.getElem?_map, hi] at h
  cases h
  rw [List.map_eq_nil_iff, List.filter_eq_nil_iff]
  rintro ⟨place, j⟩ hlink e
  obtain ⟨⟨origin, _⟩, _, h⟩ := List.mem_flatMap.mp hlink
  obtain ⟨ending, hending, e'⟩ := List.mem_map.mp h
  cases e'
  cases eq_of_beq e
  exact ne_file_of_mem_endings hending rfl

/-- only the end of the text follows a whole file -/
def FilesEnd (sets : List TerminalSet) : Prop :=
  ∀ i start : Nat, places[i]? = some (start, .file) → ∀ set : TerminalSet, sets[i]? = some set →
    ∀ t, set.contains t = true → t = .END

theorem filesEnd_handOn {sets : List TerminalSet} (h : FilesEnd sets) : FilesEnd (handOn sets) := by
  intro i start hi set hset
  rw [handOn, List.getElem?_map] at hset
  obtain ⟨⟨old, from'⟩, hzip, rfl⟩ := Option.map_eq_some_iff.mp hset
  rw [List.getElem?_zip_eq_some] at hzip
  rw [sources_of_file hi hzip.2]
  exact h i start hi old hzip.1

theorem filesEnd_settle (fuel : Nat) {sets : List TerminalSet} (h : FilesEnd sets) :
    FilesEnd (settle fuel sets) := by
  induction fuel generalizing sets with
  | zero => exact h
  | succ fuel ih =>
    simp only [settle]
    split
    · exact h
    · exact ih (filesEnd_handOn h)

theorem filesEnd_directFollow : FilesEnd (places.map directFollow) := by
  intro i start hi set hset t ht
  rw [List.getElem?_map, hi] at hset
  cases hset
  rw [directFollow, if_pos rfl] at ht
  revert ht
  cases t <;> decide

/-- a whole file is only reduced at the end of the text -/
theorem end_of_reduce_file {state : Nat} {t : Terminal} {p : Production}
    (h : action state t = some (.reduce p)) (isFile : p.lhs = .file) : t = .END := by
  obtain ⟨set, mem, ht⟩ := action_reduce h
  obtain ⟨_, start, hplace, _⟩ := mem_reductions mem
  rw [isFile] at hplace
  obtain ⟨i, hi⟩ := List.mem_iff_getElem?.mp hplace
  rw [List.getElem?_zip_eq_some] at hi
  have follows_end : FilesEnd follows := by
    rw [follows]
    exact filesEnd_settle _ filesEnd_directFollow
  exact follows_end i start hi.1 set hi.2 t ht

end Automaton

end Typings
