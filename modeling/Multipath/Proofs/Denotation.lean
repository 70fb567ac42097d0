import Multipath.Proofs.LongestMatch
import Multipath.Proofs.Shortcuts

/-!
What a lexicon made by shortcuts denotes. All tags share one table and their blocks are fed in lock
step: after a word, the active states of a block tell how far the word goes along the tag
(`Shape.Active`). So a word is accepted just when an open tag speaks it, with the open tags that do,
less those that an open keyword spelled so overrides.
-/

namespace Multipath.Lexicon

open Automaton (StateId StateSet Transition accept)

namespace Shape

/-- The words of a tag. -/
def Speaks : Shape → List Char → Prop
  | spelled text _, w => w = text ∧ w ≠ []
  | word first rest, w => ∃ c cs, w = c :: cs ∧ first.accepts c = true ∧
      ∀ d ∈ cs, rest.accepts d = true

/-- The tag takes `id` away from other tags, where `w` is read. -/
def Overrides (shape : Shape) (w : List Char) (id : TagId) : Prop :=
  ∃ overrides, shape = .spelled w overrides ∧ id ∈ overrides

/-- After `w` has been read, `s` is active in the block that begins at `base`. -/
def Active (base : Nat) : Shape → List Char → Nat → Prop
  | spelled text _, w, s => ∃ c cs, text = w ++ c :: cs ∧ s = base + w.length
  | word first rest, w, s => w = [] ∧ s = base ∨ (word first rest).Speaks w ∧ s = base + 1

theorem Speaks.ne_nil {shape : Shape} {w : List Char} (h : shape.Speaks w) : w ≠ [] := by
  cases shape with
  | spelled text overrides => exact h.2
  | word first rest =>
      obtain ⟨c, cs, rfl, -⟩ := h
      nofun

/-- One more character of the class for the rest makes a longer word. -/
theorem speaks_concat {first rest : CharClass} {w : List Char} {c : Char} :
    (word first rest).Speaks (w ++ [c]) ↔
      w = [] ∧ first.accepts c = true ∨
        (word first rest).Speaks w ∧ rest.accepts c = true := by
  cases w with
  | nil =>
      constructor
      · rintro ⟨_, _, heq, hfirst, -⟩
        cases heq
        exact .inl ⟨rfl, hfirst⟩
      · rintro (⟨-, hfirst⟩ | ⟨hspeaks, -⟩)
        · exact ⟨c, [], rfl, hfirst, by simp⟩
        · exact absurd rfl hspeaks.ne_nil
  | cons d ds =>
      constructor
      · rintro ⟨_, _, heq, hfirst, hrest⟩
        cases heq
        exact .inr ⟨⟨d, ds, rfl, hfirst, fun e he => hrest e (by simp [he])⟩, hrest c (by simp)⟩
      · rintro (⟨hnil, -⟩ | ⟨⟨_, _, heq, hfirst, hrest⟩, hc⟩)
        · cases hnil
        · cases heq
          refine ⟨d, ds ++ [c], rfl, hfirst, fun e he => ?_⟩
          obtain he | he := List.mem_append.mp he
          · exact hrest e he
          · rw [List.mem_singleton.mp he]
            exact hc

theorem Active.inBlock {shape : Shape} {base s : Nat} {w : List Char}
    (h : shape.Active base w s) : base ≤ s ∧ s < base + shape.size := by
  cases shape with
  | spelled text overrides =>
      obtain ⟨c, cs, rfl, rfl⟩ := h
      simp only [size, List.length_append, List.length_cons]
      exact ⟨Nat.le_add_right _ _, by omega⟩
  | word first rest =>
      simp only [size]
      obtain ⟨-, rfl⟩ | ⟨-, rfl⟩ := h <;> omega

theorem mem_links {id : TagId} {overrides : List TagId} {s : Nat} {text : List Char}
    {t : Transition} : t ∈ links id overrides s text ↔
      ∃ v c cs, text = v ++ c :: cs ∧ t = link id overrides (s + v.length) c cs := by
  induction text generalizing s with
  | nil => simp [links]
  | cons c cs ih =>
      rw [links, List.mem_cons, ih]
      constructor
      · rintro (rfl | ⟨v, d, ds, rfl, rfl⟩)
        · exact ⟨[], c, cs, rfl, rfl⟩
        · exact ⟨c :: v, d, ds, rfl, by rw [List.length_cons, Nat.add_right_comm, Nat.add_assoc]⟩
      · rintro ⟨v, d, ds, htext, rfl⟩
        cases v with
        | nil =>
            cases htext
            exact .inl rfl
        | cons c' v =>
            cases htext
            exact .inr ⟨v, d, ds, rfl, by rw [List.length_cons, Nat.add_right_comm, Nat.add_assoc]⟩

@[simp] theorem source_link (id : TagId) (overrides : List TagId) (s : Nat) (c : Char)
    (cs : List Char) : (link id overrides s c cs).source = s := by
  cases cs <;> rfl

@[simp] theorem label_link (id : TagId) (overrides : List TagId) (s : Nat) (c : Char)
    (cs : List Char) : (link id overrides s c cs).label = .char c := by
  cases cs <;> rfl

theorem source_inBlock {shape : Shape} {id : TagId} {base : Nat} {t : Transition}
    (h : t ∈ shape.transitions id base) : base ≤ t.source ∧ t.source < base + shape.size := by
  cases shape with
  | spelled text overrides =>
      obtain ⟨v, c, cs, rfl, rfl⟩ := mem_links.mp h
      rw [source_link, size, List.length_append, List.length_cons]
      exact ⟨Nat.le_add_right _ _,
        Nat.add_lt_add_left (Nat.lt_add_of_pos_right (Nat.succ_pos _)) base⟩
  | word first rest =>
      simp only [transitions, List.mem_cons, List.not_mem_nil, or_false] at h
      obtain rfl | rfl := h
      · exact ⟨Nat.le_refl _, Nat.lt_add_of_pos_right (Nat.succ_pos 1)⟩
      · exact ⟨Nat.le_succ _, Nat.lt_succ_self _⟩

/-- A transition of the block that the next character fires after `w`. -/
def Fires (shape : Shape) (id : TagId) (base : Nat) (w : List Char) (c : Char)
    (t : Transition) : Prop :=
  t ∈ shape.transitions id base ∧ shape.Active base w t.source ∧ t.label.accepts c = true

theorem fires_spelled {id : TagId} {base : Nat} {text w : List Char} {overrides : List TagId}
    {c : Char} {t : Transition} : (spelled text overrides).Fires id base w c t ↔
      ∃ cs, text = w ++ c :: cs ∧ t = link id overrides (base + w.length) c cs := by
  constructor
  · rintro ⟨ht, ⟨d, ds, htext, hsource⟩, hlabel⟩
    obtain ⟨v, e, es, hv, rfl⟩ := mem_links.mp ht
    rw [source_link] at hsource
    obtain ⟨rfl, hrest⟩ := List.append_inj (hv.symm.trans htext) (Nat.add_left_cancel hsource)
    rw [label_link] at hlabel
    obtain rfl : e = c := by simpa [CharClass.accepts] using hlabel
    exact ⟨es, hv, rfl⟩
  · rintro ⟨cs, rfl, rfl⟩
    refine ⟨mem_links.mpr ⟨w, c, cs, rfl, rfl⟩, ⟨c, cs, rfl, source_link ..⟩, ?_⟩
    rw [label_link]
    simp [CharClass.accepts]

theorem fires_word {id : TagId} {base : Nat} {first rest : CharClass} {w : List Char}
    {c : Char} {t : Transition} : (word first rest).Fires id base w c t ↔
      w = [] ∧ first.accepts c = true ∧ t = wordLink id base (base + 1) first ∨
        (word first rest).Speaks w ∧ rest.accepts c = true ∧
          t = wordLink id (base + 1) (base + 1) rest := by
  simp only [Fires, transitions, List.mem_cons, List.not_mem_nil, or_false]
  constructor
  · rintro ⟨rfl | rfl, ⟨hw, hs⟩ | ⟨hw, hs⟩, hlabel⟩
    · exact .inl ⟨hw, hlabel, rfl⟩
    · exact absurd hs (Nat.ne_of_lt (Nat.lt_succ_self base))
    · exact absurd hs.symm (Nat.ne_of_lt (Nat.lt_succ_self base))
    · exact .inr ⟨hw, hlabel, rfl⟩
  · rintro (⟨hw, hlabel, rfl⟩ | ⟨hw, hlabel, rfl⟩)
    · exact ⟨.inl rfl, .inl ⟨hw, rfl⟩, hlabel⟩
    · exact ⟨.inr rfl, .inr ⟨hw, rfl⟩, hlabel⟩

variable {shape : Shape} {id other : TagId} {base s : Nat} {w : List Char} {c : Char}

/-- The block accepts at the end of the tag's words. -/
theorem fires_accept : (∃ t, shape.Fires id base w c t ∧ accept ∈ t.targets) ↔
    shape.Speaks (w ++ [c]) := by
  cases shape with
  | spelled text overrides =>
      simp only [fires_spelled, Speaks]
      constructor
      · rintro ⟨_, ⟨cs, rfl, rfl⟩, haccept⟩
        cases cs with
        | nil => exact ⟨rfl, by simp⟩
        | cons d ds => exact absurd (List.mem_singleton.mp haccept) (Nat.succ_ne_zero _).symm
      · rintro ⟨rfl, -⟩
        exact ⟨_, ⟨[], rfl, rfl⟩, List.mem_singleton.mpr rfl⟩
  | word first rest =>
      rw [speaks_concat]
      simp only [fires_word]
      constructor
      · rintro ⟨_, ⟨hw, hc, rfl⟩ | ⟨hw, hc, rfl⟩, -⟩
        · exact .inl ⟨hw, hc⟩
        · exact .inr ⟨hw, hc⟩
      · rintro (⟨hw, hc⟩ | ⟨hw, hc⟩)
        · exact ⟨_, .inl ⟨hw, hc, rfl⟩, by simp [wordLink]⟩
        · exact ⟨_, .inr ⟨hw, hc, rfl⟩, by simp [wordLink]⟩

theorem fires_next (hs : s ≠ accept) : (∃ t, shape.Fires id base w c t ∧ s ∈ t.targets) ↔
    shape.Active base (w ++ [c]) s := by
  cases shape with
  | spelled text overrides =>
      simp only [fires_spelled, Active, List.append_assoc, List.singleton_append,
        List.length_append, List.length_singleton]
      constructor
      · rintro ⟨_, ⟨cs, rfl, rfl⟩, hmem⟩
        cases cs with
        | nil => exact absurd (List.mem_singleton.mp hmem) hs
        | cons d ds => exact ⟨d, ds, rfl, List.mem_singleton.mp hmem⟩
      · rintro ⟨d, ds, rfl, rfl⟩
        exact ⟨_, ⟨d :: ds, rfl, rfl⟩, List.mem_singleton.mpr rfl⟩
  | word first rest =>
      have hnil : w ++ [c] ≠ [] := by simp
      simp only [fires_word, Active, hnil, false_and, false_or, speaks_concat]
      constructor
      · rintro ⟨_, ⟨hw, hc, rfl⟩ | ⟨hw, hc, rfl⟩, hmem⟩
        · exact ⟨.inl ⟨hw, hc⟩, by simpa [wordLink, hs] using hmem⟩
        · exact ⟨.inr ⟨hw, hc⟩, by simpa [wordLink, hs] using hmem⟩
      · rintro ⟨⟨hw, hc⟩ | ⟨hw, hc⟩, rfl⟩
        · exact ⟨_, .inl ⟨hw, hc, rfl⟩, by simp [wordLink]⟩
        · exact ⟨_, .inr ⟨hw, hc, rfl⟩, by simp [wordLink]⟩

/-- Only accepting transitions say a tag, and only the block's own. -/
theorem fires_asserts : (∃ t, shape.Fires id base w c t ∧ other ∈ t.asserts) ↔
    other = id ∧ shape.Speaks (w ++ [c]) := by
  rw [← @fires_accept shape id base w c]
  have hsame {t : Transition} (ht : shape.Fires id base w c t) :
      other ∈ t.asserts ↔ other = id ∧ accept ∈ t.targets := by
    cases shape with
    | spelled text overrides =>
        obtain ⟨cs, -, rfl⟩ := fires_spelled.mp ht
        cases cs with
        | nil => simp [link]
        | cons d ds => simp [link, accept]
    | word first rest =>
        obtain ⟨-, -, rfl⟩ | ⟨-, -, rfl⟩ := fires_word.mp ht <;> simp [wordLink]
  constructor
  · rintro ⟨t, ht, hmem⟩
    exact ⟨((hsame ht).mp hmem).1, t, ht, ((hsame ht).mp hmem).2⟩
  · rintro ⟨hid, t, ht, haccept⟩
    exact ⟨t, ht, (hsame ht).mpr ⟨hid, haccept⟩⟩

theorem fires_retracts : (∃ t, shape.Fires id base w c t ∧ other ∈ t.retracts) ↔
    shape.Overrides (w ++ [c]) other := by
  cases shape with
  | spelled text overrides =>
      simp only [fires_spelled, Overrides, spelled.injEq]
      constructor
      · rintro ⟨_, ⟨cs, rfl, rfl⟩, hmem⟩
        cases cs with
        | nil => exact ⟨overrides, ⟨rfl, rfl⟩, hmem⟩
        | cons d ds => cases hmem
      · rintro ⟨_, ⟨rfl, rfl⟩, hmem⟩
        exact ⟨_, ⟨[], rfl, rfl⟩, hmem⟩
  | word first rest =>
      simp only [fires_word, Overrides]
      constructor
      · rintro ⟨_, ⟨-, -, rfl⟩ | ⟨-, -, rfl⟩, hmem⟩ <;> cases hmem
      · rintro ⟨_, heq, -⟩
        cases heq

end Shape

section Layout

theorem base_le_of_mem_layout {id : TagId} {base : Nat} {es : List Entry} {x : Placed}
    (h : x ∈ layout id base es) : base ≤ x.base := by
  induction es generalizing id base with
  | nil => cases h
  | cons e es ih =>
      obtain rfl | h := List.mem_cons.mp h
      · exact Nat.le_refl _
      · exact Nat.le_trans (Nat.le_add_right _ _) (ih h)

/-- The blocks are disjoint. -/
theorem eq_of_inBlock {id : TagId} {base s : Nat} {es : List Entry} {x y : Placed}
    (hx : x ∈ layout id base es) (hy : y ∈ layout id base es)
    (hxs : x.base ≤ s ∧ s < x.base + x.entry.shape.size)
    (hys : y.base ≤ s ∧ s < y.base + y.entry.shape.size) : x = y := by
  induction es generalizing id base with
  | nil => cases hx
  | cons e es ih =>
      have hapart {z : Placed} (hz : z ∈ layout (id + 1) (base + e.shape.size) es)
          (hs : s < base + e.shape.size) : ¬z.base ≤ s :=
        fun hle => Nat.lt_irrefl s
          (Nat.lt_of_lt_of_le hs (Nat.le_trans (base_le_of_mem_layout hz) hle))
      obtain rfl | hx := List.mem_cons.mp hx
      · obtain rfl | hy := List.mem_cons.mp hy
        · rfl
        · exact absurd hys.1 (hapart hy hxs.2)
      · obtain rfl | hy := List.mem_cons.mp hy
        · exact absurd hxs.1 (hapart hx hys.2)
        · exact ih hx hy

theorem entries_layout (id : TagId) (base : Nat) (es : List Entry) :
    (layout id base es).map (fun x => (x.entry, x.id)) = es.zipIdx id := by
  induction es generalizing id base with
  | nil => rfl
  | cons e es ih => simp [layout, ih]

/-- A tag's place in the layout is its place in the list. -/
theorem mem_layout_iff {es : List Entry} {id : TagId} {e : Entry} :
    (∃ x ∈ layout 0 1 es, x.entry = e ∧ x.id = id) ↔ es[id]? = some e := by
  rw [← List.mem_zipIdx_iff_getElem? (x := (e, id)), ← entries_layout 0 1, List.mem_map]
  simp only [Prod.mk.injEq]

theorem exists_layout_iff {es : List Entry} (kind : Entry → Prop) :
    (∃ x ∈ layout 0 1 es, kind x.entry) ↔ ∃ e ∈ es, kind e := by
  constructor
  · rintro ⟨x, hx, hkind⟩
    exact ⟨x.entry, List.mem_of_getElem? (mem_layout_iff.mp ⟨x, hx, rfl, rfl⟩), hkind⟩
  · rintro ⟨e, he, hkind⟩
    obtain ⟨id, hid⟩ := List.mem_iff_getElem?.mp he
    obtain ⟨x, hx, rfl, -⟩ := mem_layout_iff.mpr hid
    exact ⟨x, hx, hkind⟩

end Layout

section Denotation
variable {es : List Entry} {conditions : Conditions} {a : Automaton} {states : StateSet}
  {w : List Char} {c : Char}

/-- After `w`, exactly the states of open tags are active that `w` leads to. -/
def Represents (es : List Entry) (conditions : Conditions) (states : StateSet) (w : List Char) :
    Prop :=
  ∀ s, s ∈ states ↔ ∃ x ∈ layout 0 1 es, x.entry.gate.holds conditions = true ∧
    x.entry.shape.Active x.base w s

theorem fired_iff (ha : a.transitions = (layout 0 1 es).flatMap (·.transitions))
    (hstates : Represents es conditions states w) {t : Transition} :
    t ∈ a.fired c states ↔ ∃ x ∈ layout 0 1 es, x.entry.gate.holds conditions = true ∧
      x.entry.shape.Fires x.id x.base w c t := by
  simp only [Automaton.fired, ha, List.mem_filter, List.mem_flatMap, Bool.and_eq_true,
    decide_eq_true_eq, ne_eq]
  constructor
  · rintro ⟨⟨x, hx, ht⟩, ⟨-, hsource⟩, hlabel⟩
    obtain ⟨y, hy, hopen, hactive⟩ := (hstates t.source).mp hsource
    obtain rfl := eq_of_inBlock hx hy (Shape.source_inBlock ht) hactive.inBlock
    exact ⟨x, hx, hopen, ht, hactive, hlabel⟩
  · rintro ⟨x, hx, hopen, ht, hactive, hlabel⟩
    refine ⟨⟨x, hx, ht⟩, ⟨?_, (hstates t.source).mpr ⟨x, hx, hopen, hactive⟩⟩, hlabel⟩
    exact Nat.ne_of_gt (Nat.lt_of_lt_of_le (base_le_of_mem_layout hx) hactive.inBlock.1)

/-- Some open tag speaks `w`. -/
def Spoken (es : List Entry) (conditions : Conditions) (w : List Char) : Prop :=
  ∃ e ∈ es, e.gate.holds conditions = true ∧ e.shape.Speaks w

/-- The tags of `w`: the open ones that speak it, less what open keywords override. -/
def Tagged (es : List Entry) (conditions : Conditions) (w : List Char) (id : TagId) : Prop :=
  (∃ e, es[id]? = some e ∧ e.gate.holds conditions = true ∧ e.shape.Speaks w) ∧
    ∀ e ∈ es, e.gate.holds conditions = true → ¬e.shape.Overrides w id

/-- Whatever fires, fires in the block of an open tag. -/
theorem exists_fired_iff (ha : a.transitions = (layout 0 1 es).flatMap (·.transitions))
    (hstates : Represents es conditions states w) {does : Transition → Prop} :
    (∃ t ∈ a.fired c states, does t) ↔ ∃ x ∈ layout 0 1 es,
      x.entry.gate.holds conditions = true ∧
        ∃ t, x.entry.shape.Fires x.id x.base w c t ∧ does t := by
  simp only [fired_iff ha hstates]
  constructor
  · rintro ⟨t, ⟨x, hx, hopen, ht⟩, hdoes⟩
    exact ⟨x, hx, hopen, t, ht, hdoes⟩
  · rintro ⟨x, hx, hopen, t, ht, hdoes⟩
    exact ⟨t, ⟨x, hx, hopen, ht⟩, hdoes⟩

theorem represents_step (ha : a.transitions = (layout 0 1 es).flatMap (·.transitions))
    (hstates : Represents es conditions states w) :
    Represents es conditions (a.goOn c states) (w ++ [c]) := by
  intro s
  rw [Automaton.goOn, SortedSet.mem_erase, Automaton.mem_step_next, exists_fired_iff ha hstates]
  constructor
  · rintro ⟨⟨x, hx, hopen, hfires⟩, hs⟩
    exact ⟨x, hx, hopen, (Shape.fires_next hs).mp hfires⟩
  · rintro ⟨x, hx, hopen, hactive⟩
    have hs : s ≠ accept :=
      Nat.ne_of_gt (Nat.lt_of_lt_of_le (base_le_of_mem_layout hx) hactive.inBlock.1)
    exact ⟨⟨x, hx, hopen, (Shape.fires_next hs).mpr hactive⟩, hs⟩

theorem accept_mem_step_iff (ha : a.transitions = (layout 0 1 es).flatMap (·.transitions))
    (hstates : Represents es conditions states w) :
    accept ∈ (a.step c states).next ↔ Spoken es conditions (w ++ [c]) := by
  rw [Automaton.mem_step_next, exists_fired_iff ha hstates]
  simp only [Shape.fires_accept]
  exact exists_layout_iff fun e =>
    e.gate.holds conditions = true ∧ e.shape.Speaks (w ++ [c])

theorem mem_step_tags_iff (ha : a.transitions = (layout 0 1 es).flatMap (·.transitions))
    (hstates : Represents es conditions states w) (id : TagId) :
    id ∈ (a.step c states).tags ↔ Tagged es conditions (w ++ [c]) id := by
  have hasserted : (∃ t ∈ a.fired c states, id ∈ t.asserts) ↔
      ∃ e, es[id]? = some e ∧ e.gate.holds conditions = true ∧ e.shape.Speaks (w ++ [c]) := by
    rw [exists_fired_iff ha hstates]
    simp only [Shape.fires_asserts, ← mem_layout_iff]
    constructor
    · rintro ⟨x, hx, hopen, rfl, hspeaks⟩
      exact ⟨x.entry, ⟨x, hx, rfl, rfl⟩, hopen, hspeaks⟩
    · rintro ⟨_, ⟨x, hx, rfl, rfl⟩, hopen, hspeaks⟩
      exact ⟨x, hx, hopen, rfl, hspeaks⟩
  have hretracted : (∃ t ∈ a.fired c states, id ∈ t.retracts) ↔
      ∃ e ∈ es, e.gate.holds conditions = true ∧ e.shape.Overrides (w ++ [c]) id := by
    rw [exists_fired_iff ha hstates]
    simp only [Shape.fires_retracts]
    exact exists_layout_iff fun e =>
      e.gate.holds conditions = true ∧ e.shape.Overrides (w ++ [c]) id
  rw [Automaton.mem_step_tags, Tagged, hasserted]
  refine and_congr_right fun _ => ⟨fun h e he hopen hover => ?_, fun h t ht hmem => ?_⟩
  · obtain ⟨t, ht, hmem⟩ := hretracted.mpr ⟨e, he, hopen, hover⟩
    exact h t ht hmem
  · obtain ⟨e, he, hopen, hover⟩ := hretracted.mp ⟨t, ht, hmem⟩
    exact h e he hopen hover

theorem not_spoken_nil : ¬Spoken es conditions [] := by
  rintro ⟨e, -, -, hspeaks⟩
  exact hspeaks.ne_nil rfl

/-- What the table says of a word, from states that `w` leads to. -/
theorem verdict_spec (ha : a.transitions = (layout 0 1 es).flatMap (·.transitions))
    (u : List Char) (hu : u ≠ []) (hstates : Represents es conditions states w) :
    ((a.verdict states u).isSome ↔ Spoken es conditions (w ++ u)) ∧
      ∀ tags, a.verdict states u = some tags →
        ∀ id, id ∈ tags ↔ Tagged es conditions (w ++ u) id := by
  induction u generalizing states w with
  | nil => exact absurd rfl hu
  | cons c cs ih =>
      cases cs with
      | nil =>
          rw [← accept_mem_step_iff ha hstates, Automaton.verdict]
          split
          · next haccept =>
              refine ⟨⟨fun _ => haccept, fun _ => rfl⟩, ?_⟩
              rintro _ ⟨⟩ id
              exact mem_step_tags_iff ha hstates id
          · next haccept => simp [haccept]
      | cons d ds =>
          have hnext := ih (List.cons_ne_nil d ds) (represents_step (c := c) ha hstates)
          rwa [List.append_assoc] at hnext

theorem Shape.active_nil {shape : Shape} {base s : Nat} :
    shape.Active base [] s ↔ shape.size ≠ 0 ∧ s = base := by
  cases shape with
  | spelled text overrides =>
      cases text with
      | nil => simp [Active, size]
      | cons c cs => simp [Active, size]
  | word first rest =>
      have hnil : ¬(word first rest).Speaks [] := fun h => h.ne_nil rfl
      simp [Active, size, hnil]

theorem mem_startStates {lexicon : Lexicon} {s : StateId} :
    s ∈ lexicon.startStates conditions ↔ ∃ o ∈ (lexicon.tags.map (·.openings)).flatten,
      o.gate.holds conditions = true ∧ s ∈ o.states := by
  simp only [startStates, Tag.startStates, SortedSet.mem_ofList, List.mem_flatMap, List.mem_filter,
    ← List.flatMap_def]
  constructor
  · rintro ⟨tag, htag, o, ⟨ho, hopen⟩, hs⟩
    exact ⟨o, ⟨tag, htag, ho⟩, hopen, hs⟩
  · rintro ⟨o, ⟨tag, htag, ho⟩, hopen, hs⟩
    exact ⟨tag, htag, o, ⟨ho, hopen⟩, hs⟩

/-- At first the heads of the open tags are active that have states at all. -/
theorem startStates_represents {lexicon : Lexicon} (hopenings : lexicon.tags.map (·.openings) =
    (layout 0 1 es).map (·.openings)) :
    Represents es conditions (lexicon.startStates conditions) [] := by
  intro s
  have hopening (x : Placed) : (∃ o ∈ x.openings, o.gate.holds conditions = true ∧ s ∈ o.states) ↔
      x.entry.gate.holds conditions = true ∧ x.entry.shape.Active x.base [] s := by
    rw [Shape.active_nil, Placed.openings]
    split
    · next hsize => simp [hsize]
    · next hsize => simp [hsize]
  rw [mem_startStates, hopenings, ← List.flatMap_def]
  simp only [← hopening, List.mem_flatMap]
  constructor
  · rintro ⟨o, ⟨x, hx, ho⟩, hopen⟩
    exact ⟨x, hx, o, ho, hopen⟩
  · rintro ⟨x, hx, o, ho, hopen⟩
    exact ⟨o, ⟨x, hx, ho⟩, hopen⟩

end Denotation

/-- Scanning with a lexicon made by shortcuts. It accepts just when some non-empty prefix of what is
left is a word of an open tag; then it stops behind the longest such prefix, and the tags are the
open ones that have this word, less those that open keywords spelled so override. So an open tag
that has the word is missing only for a keyword of that very spelling. -/
theorem scan_denotes {steps : List Shortcut} {src : Source}
    (h : ofShortcuts steps = .ok src.lexicon) (p : Position) :
    ((src.scan p).accepted.isSome ↔
      ∃ w, w ≠ [] ∧ w <+: src.rest p.index ∧ Spoken (entries steps) src.conditions w) ∧
    ∀ m, (src.scan p).accepted = some m → ∃ w,
      LongestPrefix (Spoken (entries steps) src.conditions) (src.rest p.index) w ∧
      m.stop = p.advanceAll w ∧
      (∀ id, id ∈ m.tags ↔ Tagged (entries steps) src.conditions w id) ∧
      ∀ id e, (entries steps)[id]? = some e → e.gate.holds src.conditions = true →
        e.shape.Speaks w → (id ∉ m.tags ↔ ∃ keyword ∈ entries steps,
          keyword.gate.holds src.conditions = true ∧ keyword.shape.Overrides w id) := by
  obtain ⟨hopenings, htransitions⟩ := ofShortcuts_layout h
  have hstart : Represents (entries steps) src.conditions src.starts [] := by
    rw [src.starts_eq]
    exact startStates_represents hopenings
  have hkind (v : List Char) : (src.lexicon.automaton.verdict src.starts v).isSome ↔
      Spoken (entries steps) src.conditions v := by
    by_cases hv : v = []
    · rw [hv]
      exact ⟨nofun, fun h => absurd h not_spoken_nil⟩
    · exact (verdict_spec htransitions v hv hstart).1
  constructor
  · simp only [Source.scan_accepted_isSome_iff, hkind]
    refine exists_congr fun w => ⟨fun hw => ⟨?_, hw⟩, And.right⟩
    rintro rfl
    exact not_spoken_nil hw.2
  · intro m hm
    obtain ⟨w, hl, hw, hstop⟩ := Source.scan_accepted_iff.mp hm
    have hne := Automaton.ne_nil_of_verdict hw
    have htags := (verdict_spec htransitions w hne hstart).2 m.tags hw
    refine ⟨w, hl.congr hkind, hstop, htags, fun id e he hopen hspeaks => ?_⟩
    rw [htags]
    constructor
    · intro hmissing
      refine Classical.byContradiction fun hnone => hmissing ⟨⟨e, he, hopen, hspeaks⟩, ?_⟩
      exact fun keyword hkeyword hopen' hover => hnone ⟨keyword, hkeyword, hopen', hover⟩
    · rintro ⟨keyword, hkeyword, hopen', hover⟩ htagged
      exact htagged.2 keyword hkeyword hopen' hover

/-- Names, and a keyword among them. -/
def nameShortcuts : List Shortcut :=
  [.word "Name" .wordStart .wordContinue .always, .keyword "If" "if" .always [0]]

/-- The keyword is read as itself and not as a name. -/
theorem scan_denotes_names : ∃ lexicon, ofShortcuts nameShortcuts = .ok lexicon ∧ ∃ m,
    ((Source.ofText lexicon ∅ "if" "").scan .start).accepted = some m ∧
      m.stop = ⟨2, 1, 3⟩ ∧ 1 ∈ m.tags ∧ 0 ∉ m.tags := by
  have hok : (ofShortcuts nameShortcuts).toOption.isSome = true := by decide +kernel
  have hentries : entries nameShortcuts =
      [⟨.always, .word .wordStart .wordContinue⟩, ⟨.always, .spelled ['i', 'f'] [0]⟩] := rfl
  cases hbuilt : ofShortcuts nameShortcuts with
  | error e =>
      rw [hbuilt] at hok
      cases hok
  | ok lexicon =>
      have hkeyword : (Shape.spelled ['i', 'f'] [0]).Speaks ['i', 'f'] := ⟨rfl, nofun⟩
      have hname : (Shape.word .wordStart .wordContinue).Speaks ['i', 'f'] :=
        ⟨'i', ['f'], rfl, by decide, List.forall_mem_singleton.mpr (by decide)⟩
      have hspoken : Spoken (entries nameShortcuts) ∅ ['i', 'f'] := by
        rw [hentries]
        exact ⟨_, .tail _ (.head _), rfl, hkeyword⟩
      obtain ⟨haccepts, hmatch⟩ :=
        @scan_denotes nameShortcuts (Source.ofText lexicon ∅ "if" "") hbuilt .start
      obtain ⟨m, hm⟩ := Option.isSome_iff_exists.mp
        (haccepts.mpr ⟨['i', 'f'], nofun, List.prefix_refl _, hspoken⟩)
      obtain ⟨w, hl, hstop, htags, hmissing⟩ := hmatch m hm
      -- the whole text is a word of a tag, so it is the longest one
      have hw : w = ['i', 'f'] :=
        hl.unique ⟨List.prefix_refl _, hspoken, fun v hv _ => hv.length_le⟩
      subst hw
      rw [hentries] at htags hmissing
      refine ⟨lexicon, rfl, m, hm, hstop, (htags 1).mpr ⟨⟨_, rfl, rfl, hkeyword⟩, ?_⟩, ?_⟩
      · rintro e he - ⟨overrides, hshape, hmem⟩
        simp only [List.mem_cons, List.not_mem_nil, or_false] at he
        obtain rfl | rfl := he
        · cases hshape
        · cases hshape
          simp at hmem
      · refine (hmissing 0 _ rfl rfl hname).mpr ⟨_, .tail _ (.head _), rfl, [0], rfl, ?_⟩
        exact List.mem_singleton.mpr rfl

end Multipath.Lexicon
