import Multipath.Lexicon.Builder

/-!
Lexicons put together by the builder's shortcuts alone. Each shortcut that makes a tag takes the
next states there are, in one block, and adds transitions inside that block; so the table of such a
lexicon is laid out from the list of its tags (`Lexicon.layout`).
-/

namespace Multipath.Lexicon

open Automaton (StateId Transition accept)

/-- What a tag stands for: a text, which retracts some tags, or words of two classes. -/
inductive Shape where
  | spelled (text : List Char) (overrides : List TagId)
  | word (first rest : CharClass)

structure Entry where
  gate : Gate
  shape : Shape

inductive Shortcut where
  | literal (name text : String) (gate : Gate)
  | keyword (name text : String) (gate : Gate) (overrides : List TagId)
  | word (name : String) (first rest : CharClass) (gate : Gate)
  | ignore (tag : TagId)

namespace Shortcut

def apply : Shortcut → StateM Builder Unit
  | literal name text gate => discard (Builder.literal name text gate)
  | keyword name text gate overrides => discard (Builder.keyword name text gate overrides)
  | word name first rest gate => discard (Builder.word name first rest gate)
  | ignore tag => Builder.ignore tag

/-- The tag that a shortcut makes. -/
def entry? : Shortcut → Option Entry
  | literal _ text gate => some ⟨gate, .spelled text.toList []⟩
  | keyword _ text gate overrides => some ⟨gate, .spelled text.toList overrides⟩
  | word _ first rest gate => some ⟨gate, .word first rest⟩
  | ignore _ => none

end Shortcut

/-- The lexicon of some shortcuts, taken in order. -/
def ofShortcuts (steps : List Shortcut) : Except DefinitionError Lexicon :=
  assemble (steps.forM Shortcut.apply)

/-- The tags of some shortcuts, each known by its place. -/
def entries (steps : List Shortcut) : List Entry := steps.filterMap Shortcut.entry?

namespace Shape

/-- How many states a tag takes. -/
def size : Shape → Nat
  | spelled text _ => text.length
  | word .. => 2

/-- The transition over one character of a text, `rest` being what follows. -/
def link (id : TagId) (overrides : List TagId) (s : StateId) (c : Char) :
    List Char → Transition
  | [] =>
    { source := s, label := .char c, targets := [accept], asserts := [id], retracts := overrides }
  | _ :: _ => { source := s, label := .char c, targets := [s + 1] }

def links (id : TagId) (overrides : List TagId) : StateId → List Char → List Transition
  | _, [] => []
  | s, c :: cs => link id overrides s c cs :: links id overrides (s + 1) cs

/-- The transition over one character of a word, to the state `tail` where more may follow. -/
def wordLink (id : TagId) (s tail : StateId) (label : CharClass) : Transition :=
  { source := s, label, targets := [tail, accept], asserts := [id] }

/-- The transitions of a tag whose states begin at `base`. -/
def transitions (id : TagId) (base : StateId) : Shape → List Transition
  | spelled text overrides => links id overrides base text
  | word first rest =>
    [wordLink id base (base + 1) first, wordLink id (base + 1) (base + 1) rest]

end Shape

/-- A tag with its place in the table. -/
structure Placed where
  id : TagId
  base : StateId
  entry : Entry

/-- How many states some tags take. -/
def extent : List Entry → Nat
  | [] => 0
  | e :: es => e.shape.size + extent es

theorem extent_append (es es' : List Entry) : extent (es ++ es') = extent es + extent es' := by
  induction es with
  | nil => simp [extent]
  | cons e es ih => simp [extent, ih, Nat.add_assoc]

namespace Placed

def openings (x : Placed) : List Opening :=
  if x.entry.shape.size = 0 then [] else [⟨x.entry.gate, [x.base]⟩]

def transitions (x : Placed) : List Transition := x.entry.shape.transitions x.id x.base

end Placed

/-- Tags in consecutive blocks of states, from a first tag and a first state on. -/
def layout : TagId → StateId → List Entry → List Placed
  | _, _, [] => []
  | id, base, e :: es => ⟨id, base, e⟩ :: layout (id + 1) (base + e.shape.size) es

theorem length_layout (id : TagId) (base : StateId) (es : List Entry) :
    (layout id base es).length = es.length := by
  induction es generalizing id base with
  | nil => rfl
  | cons e es ih => simp [layout, ih]

theorem layout_append (id : TagId) (base : StateId) (es es' : List Entry) :
    layout id base (es ++ es') = layout id base es ++
      layout (id + es.length) (base + extent es) es' := by
  induction es generalizing id base with
  | nil => simp [layout, extent]
  | cons e es ih => simp [layout, extent, ih, Nat.add_assoc, Nat.add_comm 1]

namespace Builder

/-- `b'` is `b` with some tags laid out behind those it has. -/
structure Lays (b b' : Builder) (es : List Entry) : Prop where
  openings : b'.tags.map (·.openings) =
    b.tags.map (·.openings) ++ (layout b.tags.length b.nextState es).map (·.openings)
  transitions : b'.transitions =
    b.transitions ++ (layout b.tags.length b.nextState es).flatMap (·.transitions)
  nextState : b'.nextState = b.nextState + extent es

theorem Lays.length {b b' : Builder} {es : List Entry} (h : b.Lays b' es) :
    b'.tags.length = b.tags.length + es.length := by
  have hlength := congrArg List.length h.openings
  simpa [length_layout] using hlength

theorem Lays.trans {b b' b'' : Builder} {es es' : List Entry} (h : b.Lays b' es)
    (h' : b'.Lays b'' es') : b.Lays b'' (es ++ es') where
  openings := by
    rw [h'.openings, h.openings, h.length, h.nextState, layout_append, List.map_append,
      List.append_assoc]
  transitions := by
    rw [h'.transitions, h.transitions, h.length, h.nextState, layout_append, List.flatMap_append,
      List.append_assoc]
  nextState := by
    rw [h'.nextState, h.nextState, extent_append, Nat.add_assoc]

theorem Lays.refl (b : Builder) : b.Lays b [] := ⟨by simp [layout], by simp [layout], rfl⟩

/-- The states of a chain follow each other. -/
theorem run_chain (id : TagId) (overrides : List TagId) (c : Char) (cs : List Char) (s : StateId)
    (b : Builder) (hb : b.nextState = s + 1) :
    ((chain id overrides s (c :: cs)).run b).2 =
      { b with
        transitions := b.transitions ++ Shape.links id overrides s (c :: cs)
        nextState := s + (c :: cs).length } := by
  induction cs generalizing c s b with
  | nil =>
      rw [List.length_singleton, ← hb]
      rfl
  | cons c' cs ih =>
      have hnext : ((chain id overrides s (c :: c' :: cs)).run b).2 =
          ((chain id overrides b.nextState (c' :: cs)).run
            { b with
              transitions := b.transitions ++
                [{ source := s, label := .char c, targets := [b.nextState] }]
              nextState := b.nextState + 1 }).2 := by
        rw [chain]
        rfl
      rw [hnext, hb, ih _ _ _ rfl]
      simp [Shape.links, Shape.link, Nat.add_comm, Nat.add_left_comm]

theorem modify_last (tags : List Tag) (tag : Tag) (change : Tag → Tag) :
    (tags ++ [tag]).modify tags.length change = tags ++ [change tag] := by
  induction tags with
  | nil => rfl
  | cons t tags ih => exact congrArg (t :: ·) ih

/-- Opens a tag just declared. -/
theorem run_openStates (b : Builder) (name : String) (gate : Gate) {s : StateId}
    (hs : s ≠ accept) :
    ((openStates b.tags.length gate [s]).run { b with tags := b.tags ++ [{ name }] }).2 =
      { b with tags := b.tags ++ [{ name, openings := [⟨gate, [s]⟩] }] } := by
  have hget : (b.tags ++ [({ name } : Tag)])[b.tags.length]? = some { name } := by simp
  have hstart : accept ∉ [s] := by simpa [@eq_comm _ accept] using hs
  have hrun : ((openStates b.tags.length gate [s]).run { b with tags := b.tags ++ [{ name }] }).2 =
      { b with tags := List.modify (b.tags ++ [{ name }]) b.tags.length fun tag =>
          { tag with openings := tag.openings ++ [⟨gate, [s]⟩] } } := by
    simp only [openStates, StateT.run_bind, StateT.run_get, pure_bind, hget, if_neg hstart]
    rfl
  rw [hrun, modify_last]
  rfl

/-- One tag more, with its opening, its transitions and its states. -/
theorem lays_one {b b' : Builder} (x : Entry) (name : String)
    (htags : b'.tags = b.tags ++
      [{ name, openings := Placed.openings ⟨b.tags.length, b.nextState, x⟩ }])
    (htransitions : b'.transitions =
      b.transitions ++ x.shape.transitions b.tags.length b.nextState)
    (hnext : b'.nextState = b.nextState + x.shape.size) : b.Lays b' [x] := by
  refine ⟨?_, ?_, ?_⟩
  · simp [htags, layout]
  · simp [htransitions, layout, Placed.transitions]
  · simp [hnext, extent]

theorem run_keyword (name text : String) (gate : Gate) (overrides : List TagId) (b : Builder)
    (hb : b.nextState ≠ accept) : b.Lays ((keyword name text gate overrides).run b).2
      [⟨gate, .spelled text.toList overrides⟩] := by
  cases htext : text.toList with
  | nil =>
      have hrun : ((keyword name text gate overrides).run b).2 =
          { b with tags := b.tags ++ [{ name }] } := by
        rw [keyword, htext]
        rfl
      rw [hrun]
      exact lays_one _ name rfl (List.append_nil _).symm rfl
  | cons c cs =>
      have hopen := run_openStates { b with nextState := b.nextState + 1 } name gate hb
      have hrun : ((keyword name text gate overrides).run b).2 =
          ((chain b.tags.length overrides b.nextState (c :: cs)).run
            ((openStates b.tags.length gate [b.nextState]).run
              { b with tags := b.tags ++ [{ name }], nextState := b.nextState + 1 }).2).2 := by
        rw [keyword, htext]
        rfl
      rw [hrun, hopen, run_chain _ _ _ _ _ _ rfl]
      exact lays_one _ name rfl rfl rfl

theorem run_word (name : String) (first rest : CharClass) (gate : Gate) (b : Builder)
    (hb : b.nextState ≠ accept) :
    b.Lays ((word name first rest gate).run b).2 [⟨gate, .word first rest⟩] := by
  have hopen := run_openStates { b with nextState := b.nextState + 2 } name gate hb
  have hrun : ((word name first rest gate).run b).2 =
      let opened := ((openStates b.tags.length gate [b.nextState]).run
        { b with tags := b.tags ++ [{ name }], nextState := b.nextState + 2 }).2
      { opened with
        transitions := opened.transitions ++
          [Shape.wordLink b.tags.length b.nextState (b.nextState + 1) first] ++
          [Shape.wordLink b.tags.length (b.nextState + 1) (b.nextState + 1) rest] } := rfl
  rw [hrun, hopen]
  exact lays_one _ name rfl (List.append_assoc _ _ _) rfl

theorem openings_modify (tags : List Tag) (id : TagId) (change : Tag → Tag)
    (hchange : ∀ tag, (change tag).openings = tag.openings) :
    (tags.modify id change).map (·.openings) = tags.map (·.openings) := by
  induction tags generalizing id with
  | nil => rw [List.modify_nil]
  | cons tag tags ih =>
      cases id with
      | zero => simp [hchange]
      | succ id => simp [ih]

theorem run_ignore (tag : TagId) (b : Builder) : b.Lays ((ignore tag).run b).2 [] := by
  unfold ignore
  simp only [StateT.run_bind, StateT.run_get, pure_bind]
  cases b.tags[tag]? with
  | none => exact ⟨(List.append_nil _).symm, (List.append_nil _).symm, rfl⟩
  | some t =>
      refine ⟨?_, (List.append_nil _).symm, rfl⟩
      refine (openings_modify b.tags tag (fun t => { t with ignored := true }) ?_).trans
        (List.append_nil _).symm
      exact fun _ => rfl

end Builder

theorem Shortcut.lays (step : Shortcut) (b : Builder) (hb : b.nextState ≠ accept) :
    b.Lays (step.apply.run b).2 step.entry?.toList := by
  cases step with
  | literal name text gate => exact Builder.run_keyword name text gate [] b hb
  | keyword name text gate overrides => exact Builder.run_keyword name text gate overrides b hb
  | word name first rest gate => exact Builder.run_word name first rest gate b hb
  | ignore tag => exact Builder.run_ignore tag b

theorem entries_cons (step : Shortcut) (steps : List Shortcut) :
    entries (step :: steps) = step.entry?.toList ++ entries steps := by
  unfold entries
  cases h : step.entry? <;> simp [h]

theorem lays_of_shortcuts (steps : List Shortcut) (b : Builder) (hb : b.nextState ≠ accept) :
    b.Lays ((steps.forM Shortcut.apply).run b).2 (entries steps) := by
  induction steps generalizing b with
  | nil => exact .refl b
  | cons step steps ih =>
      have hstep := step.lays b hb
      rw [entries_cons]
      refine hstep.trans (ih _ ?_)
      rw [hstep.nextState]
      exact fun h => hb (Nat.eq_zero_of_add_eq_zero_right h)

/-- The table of a lexicon made by shortcuts is laid out from its tags. -/
theorem ofShortcuts_layout {steps : List Shortcut} {lexicon : Lexicon}
    (h : ofShortcuts steps = .ok lexicon) :
    lexicon.tags.map (·.openings) = (layout 0 1 (entries steps)).map (·.openings) ∧
      lexicon.automaton.transitions = (layout 0 1 (entries steps)).flatMap (·.transitions) := by
  have hlays := lays_of_shortcuts steps {} nofun
  unfold ofShortcuts assemble Builder.build at h
  split at h
  · cases h
  · cases h
  · cases h
  · cases h
    exact ⟨hlays.openings, hlays.transitions⟩

end Multipath.Lexicon
