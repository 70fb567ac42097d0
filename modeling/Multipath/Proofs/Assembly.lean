import Mathlib.Data.List.Forall2
import Mathlib.Data.List.Induction
import Multipath.Proofs.Closedness
import Multipath.Proofs.Ensures
import Multipath.Proofs.Productions
import Multipath.Samples

/-!
Putting a grammar together from steps in any order. What the steps say is read off the list of them:
the names in the order in which they come up, the bodies defined and for which of the names, the
starts and the features. A list of steps is well-formed if no definition misses and nothing is left
open in the end; just the well-formed lists build, and what they build is the grammar they describe,
which is closed (`Grammar.ofSteps_wellFormed`). The builder's faults and bodies are followed through
the steps one by one, whatever is declared, defined or enabled in between.
-/

namespace Multipath

namespace Grammar

inductive Step where
  | declare (name : String)
  | define (id : RuleId) (body : Rule)
  | rule (name : String) (body : Rule)
  | start (id : RuleId) (gate : Gate)
  | enable (feature : String)
  | enableAll (features : List String)

namespace Step

def apply : Step → StateM Builder Unit
  | declare name => discard (Builder.declare name)
  | define id body => Builder.define id body
  | rule name body => discard (Builder.rule name body)
  | start id gate => Builder.start id gate
  | enable feature => Builder.enable feature
  | enableAll features => Builder.enableAll features

/-- The name that a step declares unless it was before. -/
def name? : Step → Option String
  | declare name | rule name _ => some name
  | _ => none

/-- The body that a step defines and the id it is for, where names have their ids by place. -/
def definition? (names : List String) : Step → Option (RuleId × Rule)
  | define id body => some (id, body)
  | rule name body => some (names.idxOf name, body)
  | _ => none

def start? : Step → Option Start
  | start id gate => some ⟨id, gate⟩
  | _ => none

def features : Step → List String
  | enable feature => [feature]
  | enableAll features => features
  | _ => []

end Step

/-- The grammar of some steps, taken in order. -/
def ofSteps (lexicon : Lexicon) (steps : List Step) : Except DefinitionError Grammar :=
  assemble lexicon (steps.forM Step.apply)

/-- The names declared, each where it comes up first. -/
def declared (steps : List Step) : List String := (steps.filterMap Step.name?).eraseDups

def definitions (steps : List Step) : List (RuleId × Rule) :=
  steps.filterMap (Step.definition? (declared steps))

def started (steps : List Step) : List Start := steps.filterMap Step.start?

def enabled (steps : List Step) : Features := .ofList (steps.flatMap Step.features)

/-- What the step defines, if anything, is declared by then and has no body yet. -/
def Hits (before : List Step) (step : Step) : Prop :=
  ∀ d ∈ step.definition? (declared (before ++ [step])),
    d.1 < (declared (before ++ [step])).length ∧ ∀ body, (d.1, body) ∉ definitions before

structure WellFormed (lexicon : Lexicon) (steps : List Step) : Prop where
  hits : ∀ before step, before ++ [step] <+: steps → Hits before step
  someStart : started steps ≠ []
  starts : ∀ start ∈ started steps, start.rule < (declared steps).length
  bodies : ∀ id < (declared steps).length, ∃ body, (id, body) ∈ definitions steps
  within : ∀ d ∈ definitions steps, d.2.Within (declared steps).length lexicon.tags.length

/-- The rules are the declared names with the normal forms of what was defined for them, under all
features that were ever enabled. -/
structure Renders (g : Grammar) (lexicon : Lexicon) (steps : List Step) : Prop where
  lexicon : g.lexicon = lexicon
  starts : g.starts = started steps
  features : g.features = enabled steps
  length : g.rules.length = (declared steps).length
  rules : ∀ id name, (declared steps)[id]? = some name →
    ∃ body, (id, body) ∈ definitions steps ∧
      g.rule? id = some ⟨name, body.normalize (enabled steps)⟩

/-- Names tell the rules apart, nothing is left to switch, and everything leads somewhere. -/
structure Sound (g : Grammar) : Prop where
  nodup : (g.rules.map (·.name)).Nodup
  find : ∀ id < g.rules.length, g.find? (g.name id) = some id
  starts : ∀ start ∈ g.starts, start.rule < g.rules.length
  switchless : ∀ d ∈ g.rules, ∀ feature body, .switch feature body ∉ d.body.parts
  closed : g.Closed

namespace Builder

variable {b : Builder}

theorem foreignReference?_eq_none {rules tags : Nat} {body : Rule} :
    foreignReference? rules tags body = none ↔ body.Within rules tags := by
  rw [foreignReference?, List.findSome?_eq_none_iff]
  refine forall₂_congr fun part _ => ?_
  cases part <;> simp [Rule.Leads]

theorem definition_eq_ok {entry : String × Option Rule} {d : Definition} :
    b.definition entry = .ok d ↔ ∃ body, entry.2 = some body ∧
      body.Within b.entries.length b.lexicon.tags.length ∧
      d = ⟨entry.1, body.normalize b.features⟩ := by
  obtain ⟨name, _ | body⟩ := entry
  · simp [definition]
  · rw [definition]
    cases h : foreignReference? b.entries.length b.lexicon.tags.length body with
    | none => simp [foreignReference?_eq_none.mp h, eq_comm]
    | some e =>
        have hforeign : ¬body.Within b.entries.length b.lexicon.tags.length := by
          rw [← foreignReference?_eq_none, h]
          simp
        simp [hforeign]

theorem mapM_eq_ok {ε α β : Type} {f : α → Except ε β} {as : List α} {bs : List β} :
    as.mapM f = .ok bs ↔ List.Forall₂ (fun a b => f a = .ok b) as bs := by
  induction as generalizing bs with
  | nil =>
      rw [List.mapM_nil, List.forall₂_nil_left_iff, eq_comm (a := bs)]
      exact ⟨Except.ok.inj, congrArg Except.ok⟩
  | cons a as ih =>
      rw [List.mapM_cons]
      constructor
      · intro h
        cases ha : f a with
        | error e =>
            rw [ha] at h
            cases h
        | ok b =>
            cases has : as.mapM f with
            | error e =>
                rw [ha, has] at h
                cases h
            | ok bs' =>
                rw [ha, has] at h
                cases h
                exact .cons ha (ih.mp has)
      · rintro (_ | ⟨ha, has⟩)
        rw [ha, ih.mpr has]
        rfl

theorem foreignStart?_eq_none :
    b.foreignStart? = none ↔ ∀ start ∈ b.starts, start.rule < b.entries.length := by
  simp [foreignStart?]

theorem build_eq_ok {g : Grammar} : b.build = .ok g ↔
    b.faults = [] ∧ b.starts ≠ [] ∧ (∀ start ∈ b.starts, start.rule < b.entries.length) ∧
      List.Forall₂ (fun entry d => b.definition entry = .ok d) b.entries g.rules ∧
      g.lexicon = b.lexicon ∧ g.starts = b.starts ∧ g.features = b.features := by
  rw [← foreignStart?_eq_none, ← mapM_eq_ok]
  unfold build
  cases hfaults : b.faults with
  | cons e es => simp
  | nil =>
      cases hstarts : b.starts with
      | nil => simp
      | cons start starts =>
          cases hforeign : b.foreignStart? with
          | some id => simp
          | none =>
              cases hrules : b.entries.mapM b.definition with
              | error e => simp [bind, Except.bind]
              | ok rules =>
                  obtain ⟨lexicon, rules', starts', features⟩ := g
                  simp only [bind, Except.bind, pure, Except.pure]
                  grind

end Builder

section Steps

variable {steps : List Step} {step : Step} {name : String}

/-- The names with one more behind them, unless it is one of them. -/
def withName (names : List String) (name : String) : List String :=
  if name ∈ names then names else names ++ [name]

theorem mem_declared : name ∈ declared steps ↔ ∃ step ∈ steps, step.name? = some name := by
  rw [declared, List.mem_eraseDups, List.mem_filterMap]

theorem declared_concat_of_some (h : step.name? = some name) :
    declared (steps ++ [step]) = withName (declared steps) name := by
  have hnew : ([step].filterMap Step.name?).removeAll (steps.filterMap Step.name?) =
      if name ∈ declared steps then [] else [name] := by
    rw [List.filterMap_cons_some h, List.filterMap_nil, declared, List.removeAll]
    simp only [List.mem_eraseDups]
    split <;> simp_all
  rw [declared, List.filterMap_append, List.eraseDups_append, hnew, ← declared, withName]
  split
  · exact List.append_nil _
  · rfl

theorem declared_concat_of_none (h : step.name? = none) :
    declared (steps ++ [step]) = declared steps := by
  rw [declared, List.filterMap_append, List.filterMap_cons_none h, List.filterMap_nil,
    List.append_nil, declared]

theorem declared_grows (steps : List Step) (step : Step) :
    declared steps <+: declared (steps ++ [step]) := by
  cases h : step.name? with
  | none => exact ⟨[], (List.append_nil _).trans (declared_concat_of_none h).symm⟩
  | some name =>
      rw [declared_concat_of_some h, withName]
      split
      · exact List.prefix_rfl
      · exact List.prefix_append _ _

theorem nodup_declared (steps : List Step) : (declared steps).Nodup := by
  induction steps using List.reverseRecOn with
  | nil => exact List.nodup_nil
  | append_singleton steps step ih =>
      cases h : step.name? with
      | none =>
          rw [declared_concat_of_none h]
          exact ih
      | some name =>
          rw [declared_concat_of_some h, withName]
          split
          · exact ih
          · next hname => exact List.nodup_append.mpr ⟨ih, by simp, by grind⟩

/-- A name keeps its place. -/
theorem definition?_of_mem {names names' : List String} (hnames : names <+: names')
    (h : ∀ name, step.name? = some name → name ∈ names) :
    step.definition? names' = step.definition? names := by
  cases step with
  | rule name body =>
      obtain ⟨more, rfl⟩ := hnames
      rw [Step.definition?, Step.definition?, List.idxOf_append_of_mem (h name rfl)]
  | _ => rfl

theorem definitions_concat (steps : List Step) (step : Step) :
    definitions (steps ++ [step]) =
      definitions steps ++ (step.definition? (declared (steps ++ [step]))).toList := by
  have hold : steps.filterMap (Step.definition? (declared (steps ++ [step]))) =
      definitions steps := by
    refine List.filterMap_congr fun x hx => ?_
    exact definition?_of_mem (declared_grows steps step) fun name hname =>
      mem_declared.mpr ⟨x, hx, hname⟩
  rw [definitions, List.filterMap_append, hold]
  cases h : step.definition? (declared (steps ++ [step])) <;> simp [h]

theorem hits_concat : (∀ before x, before ++ [x] <+: steps ++ [step] → Hits before x) ↔
    (∀ before x, before ++ [x] <+: steps → Hits before x) ∧ Hits steps step := by
  constructor
  · intro h
    exact ⟨fun before x hx => h before x (hx.trans (List.prefix_append _ _)),
      h steps step List.prefix_rfl⟩
  · rintro ⟨h, hlast⟩ before x hx
    obtain heq | hx := List.prefix_concat_iff.mp hx
    · obtain ⟨hbefore, hx⟩ := List.append_inj' heq rfl
      cases hx
      exact hbefore ▸ hlast
    · exact h before x hx

end Steps

namespace Builder

/-- What was declared and defined so far is in the builder's entries, and its faults say whether
each definition hit. -/
structure Holds (b : Builder) (names : List String) (bodies : List (RuleId × Rule))
    (intact : Prop) : Prop where
  names : b.entries.map (·.1) = names
  faults : b.faults = [] ↔ intact
  bodies : intact → ∀ id body, (∃ name, b.entries[id]? = some (name, some body)) ↔
    (id, body) ∈ bodies

variable {b : Builder} {names : List String} {bodies : List (RuleId × Rule)} {intact : Prop}

theorem run_declare_known {name : String} (h : name ∈ b.entries.map (·.1)) :
    (declare name).run b = ((b.entries.map (·.1)).idxOf name, b) := by
  have hfind : b.entries.findIdx? (·.1 == name) = some ((b.entries.map (·.1)).idxOf name) := by
    rw [List.idxOf, List.findIdx_map]
    refine List.findIdx?_eq_some_of_exists ?_
    simpa using h
  rw [declare, StateT.run_modifyGet, hfind]
  rfl

theorem Holds.declare (h : b.Holds names bodies intact) (name : String) :
    ((Builder.declare name).run b).1 = (withName names name).idxOf name ∧
      ((Builder.declare name).run b).2.Holds (withName names name) bodies intact := by
  obtain ⟨rfl, hfaults, hbodies⟩ := h
  by_cases hname : name ∈ b.entries.map (·.1)
  · rw [run_declare_known hname, withName, if_pos hname]
    exact ⟨rfl, rfl, hfaults, hbodies⟩
  · have hnew : ∀ e ∈ b.entries, e.1 ≠ name := fun e he heq =>
      hname (List.mem_map.mpr ⟨e, he, heq⟩)
    rw [run_declare_new b name hnew, withName, if_neg hname]
    refine ⟨?_, List.map_append, hfaults, fun hintact id body => ?_⟩
    · rw [List.idxOf_append_of_notMem hname, List.length_map]
      simp
    · rw [← hbodies hintact id body]
      -- The entry behind the others has no body.
      grind

/-- The faults stay empty just where the definition hits. -/
theorem Holds.define (h : b.Holds names bodies intact) (id : RuleId) (body : Rule) :
    ((Builder.define id body).run b).2.Holds names (bodies ++ [(id, body)])
      (intact ∧ id < names.length ∧ ∀ body, (id, body) ∉ bodies) := by
  obtain ⟨rfl, hfaults, hbodies⟩ := h
  cases hentry : b.entries[id]? with
  | none =>
      have hrun : ((Builder.define id body).run b).2 =
          { b with faults := b.faults ++ [.unknownRule id] } := by
        simp only [Builder.define, StateT.run_bind, StateT.run_get, pure_bind, hentry]
        rfl
      have hlength : b.entries.length ≤ id := List.getElem?_eq_none_iff.mp hentry
      have hmiss : ¬(intact ∧ id < (b.entries.map (·.1)).length ∧ ∀ body, (id, body) ∉ bodies) := by
        rintro ⟨-, hlt, -⟩
        rw [List.length_map] at hlt
        exact absurd hlt (Nat.not_lt.mpr hlength)
      rw [hrun]
      exact ⟨rfl, by simpa using hmiss, fun h => absurd h hmiss⟩
  | some entry =>
      obtain ⟨name, _ | old⟩ := entry
      · have hlt : id < b.entries.length := (List.getElem?_eq_some_iff.mp hentry).1
        have hhit : intact → ∀ body, (id, body) ∉ bodies := by
          intro hintact body hmem
          obtain ⟨name', hname'⟩ := (hbodies hintact id body).mpr hmem
          rw [hentry] at hname'
          cases hname'
        rw [run_define_open b body hentry]
        refine ⟨?_, ?_, fun hintact id' body' => ?_⟩
        · rw [List.map_set]
          refine List.ext_getElem? fun n => ?_
          grind
        · rw [hfaults, List.length_map]
          exact ⟨fun h => ⟨h, hlt, hhit h⟩, And.left⟩
        · rw [List.mem_append, List.mem_singleton, ← hbodies hintact.1 id' body']
          by_cases heq : id' = id
          · subst heq
            simp [List.getElem?_set_self hlt, hentry, @eq_comm _ body]
          · simp [List.getElem?_set_ne (Ne.symm heq), heq]
      · have hrun : ((Builder.define id body).run b).2 =
            { b with faults := b.faults ++ [.duplicateRule name] } := by
          simp only [Builder.define, StateT.run_bind, StateT.run_get, pure_bind, hentry]
          rfl
        have hmiss :
            ¬(intact ∧ id < (b.entries.map (·.1)).length ∧ ∀ body, (id, body) ∉ bodies) := by
          rintro ⟨hintact, -, hopen⟩
          exact hopen old ((hbodies hintact id old).mp ⟨name, hentry⟩)
        rw [hrun]
        exact ⟨rfl, by simpa using hmiss, fun h => absurd h hmiss⟩

/-- What the steps so far have made of a builder that was fresh. -/
structure Reflects (b : Builder) (lexicon : Lexicon) (steps : List Step) : Prop where
  lexicon : b.lexicon = lexicon
  starts : b.starts = started steps
  features : b.features = enabled steps
  holds : b.Holds (declared steps) (definitions steps)
    (∀ before step, before ++ [step] <+: steps → Hits before step)

theorem declare_frame (b : Builder) (name : String) :
    ((declare name).run b).2.lexicon = b.lexicon ∧ ((declare name).run b).2.starts = b.starts ∧
      ((declare name).run b).2.features = b.features := by
  rw [declare, StateT.run_modifyGet]
  cases b.entries.findIdx? (·.1 == name) <;> exact ⟨rfl, rfl, rfl⟩

theorem define_frame (b : Builder) (id : RuleId) (body : Rule) :
    ((define id body).run b).2.lexicon = b.lexicon ∧ ((define id body).run b).2.starts = b.starts ∧
      ((define id body).run b).2.features = b.features := by
  simp only [define, StateT.run_bind, StateT.run_get, pure_bind]
  obtain _ | ⟨name, _ | old⟩ := b.entries[id]? <;> exact ⟨rfl, rfl, rfl⟩

section Reflects

variable {lexicon : Lexicon} {steps : List Step} {step : Step}

theorem hits_of_none (h : step.definition? (declared (steps ++ [step])) = none) :
    Hits steps step :=
  fun d hd => by simp [h] at hd

theorem hits_of_some {d : RuleId × Rule}
    (h : step.definition? (declared (steps ++ [step])) = some d) :
    Hits steps step ↔ d.1 < (declared (steps ++ [step])).length ∧
      ∀ body, (d.1, body) ∉ definitions steps := by
  simp [Hits, h]

theorem Holds.congr (h : b.Holds names bodies intact) {names' : List String}
    {bodies' : List (RuleId × Rule)} {intact' : Prop} (hnames : names = names')
    (hbodies : bodies = bodies') (hintact : intact ↔ intact') : b.Holds names' bodies' intact' := by
  obtain rfl := propext hintact
  exact hnames ▸ hbodies ▸ h

/-- A step that declares and defines nothing. -/
theorem Holds.idle (h : b.Holds (declared steps) (definitions steps) intact)
    (hname : step.name? = none) (hdefinition : ∀ names, step.definition? names = none) :
    b.Holds (declared (steps ++ [step])) (definitions (steps ++ [step]))
      (intact ∧ Hits steps step) := by
  refine h.congr (declared_concat_of_none hname).symm ?_ ?_
  · rw [definitions_concat, hdefinition, Option.toList_none, List.append_nil]
  · exact (and_iff_left (hits_of_none (hdefinition _))).symm

theorem Reflects.concat (h : b.Reflects lexicon steps) {b' : Builder}
    (hlexicon : b'.lexicon = b.lexicon) (hstarts : b'.starts = b.starts ++ step.start?.toList)
    (hfeatures : ∀ f, f ∈ b'.features ↔ f ∈ b.features ∨ f ∈ step.features)
    (hholds : b'.Holds (declared (steps ++ [step])) (definitions (steps ++ [step]))
      ((∀ before x, before ++ [x] <+: steps → Hits before x) ∧ Hits steps step)) :
    b'.Reflects lexicon (steps ++ [step]) where
  lexicon := hlexicon.trans h.lexicon
  starts := by
    rw [hstarts, h.starts, started, started, List.filterMap_append]
    cases step <;> rfl
  features := Std.ExtTreeSet.ext_mem fun f => by
    simp [hfeatures, h.features, enabled]
  holds := hholds.congr rfl rfl hits_concat.symm

theorem Reflects.apply (h : b.Reflects lexicon steps) (step : Step) :
    (step.apply.run b).2.Reflects lexicon (steps ++ [step]) := by
  cases step with
  | declare name =>
      obtain ⟨hlexicon, hstarts, hfeatures⟩ := declare_frame b name
      have hholds := (h.holds.declare name).2
      refine h.concat hlexicon (hstarts.trans (List.append_nil _).symm)
        (fun f => by
          rw [← hfeatures]
          exact (or_iff_left List.not_mem_nil).symm) ?_
      refine hholds.congr (declared_concat_of_some rfl).symm ?_ ?_
      · rw [definitions_concat]
        exact (List.append_nil _).symm
      · exact (and_iff_left (hits_of_none rfl)).symm
  | define id body =>
      obtain ⟨hlexicon, hstarts, hfeatures⟩ := define_frame b id body
      have hdeclared : declared steps = declared (steps ++ [.define id body]) :=
        (declared_concat_of_none rfl).symm
      refine h.concat hlexicon (hstarts.trans (List.append_nil _).symm)
        (fun f => by
          rw [← hfeatures]
          exact (or_iff_left List.not_mem_nil).symm) ?_
      refine (h.holds.define id body).congr hdeclared ?_ ?_
      · rw [definitions_concat]
        rfl
      · rw [hits_of_some rfl, ← hdeclared]
  | rule name body =>
      obtain ⟨hid, hdeclare⟩ := h.holds.declare name
      obtain ⟨hlexicon, hstarts, hfeatures⟩ := declare_frame b name
      obtain ⟨hlexicon', hstarts', hfeatures'⟩ := define_frame ((Builder.declare name).run b).2
        ((Builder.declare name).run b).1 body
      have hdeclared : withName (declared steps) name = declared (steps ++ [.rule name body]) :=
        (declared_concat_of_some rfl).symm
      refine h.concat (hlexicon'.trans hlexicon)
        ((hstarts'.trans hstarts).trans (List.append_nil _).symm)
        (fun f => by
          rw [← hfeatures, ← hfeatures']
          exact (or_iff_left List.not_mem_nil).symm) ?_
      refine (hdeclare.define ((Builder.declare name).run b).1 body).congr hdeclared ?_ ?_
      · rw [definitions_concat, hid, hdeclared]
        rfl
      · rw [hits_of_some rfl, hid, hdeclared]
  | start id gate =>
      exact h.concat rfl rfl (fun f => (or_iff_left List.not_mem_nil).symm)
        (Holds.idle ⟨h.holds.names, h.holds.faults, h.holds.bodies⟩ rfl fun _ => rfl)
  | enable feature =>
      refine h.concat rfl (List.append_nil _).symm (fun f => ?_)
        (Holds.idle ⟨h.holds.names, h.holds.faults, h.holds.bodies⟩ rfl fun _ => rfl)
      exact SortedSet.mem_insert.trans (by simp [Step.features, or_comm])
  | enableAll features =>
      refine h.concat rfl (List.append_nil _).symm (fun f => ?_)
        (Holds.idle ⟨h.holds.names, h.holds.faults, h.holds.bodies⟩ rfl fun _ => rfl)
      exact Std.ExtTreeSet.mem_insertMany_list.trans (by simp [Step.features])

theorem reflects_run (lexicon : Lexicon) (steps : List Step) :
    ((steps.forM Step.apply).run { lexicon }).2.Reflects lexicon steps := by
  induction steps using List.reverseRecOn with
  | nil =>
      refine ⟨rfl, rfl, rfl, rfl, iff_of_true rfl ?_, fun _ _ _ => iff_of_false ?_ List.not_mem_nil⟩
      · intro before x hx
        exact absurd (List.prefix_nil.mp hx) (by simp)
      · rintro ⟨_, ⟨⟩⟩
  | append_singleton steps step ih =>
      have hrun : (steps ++ [step]).forM Step.apply =
          steps.forM Step.apply >>= fun _ => [step].forM Step.apply :=
        List.forM_append
      rw [hrun, run_bind_snd]
      exact ih.apply step

end Reflects

section Build

theorem rule?_of_build {g : Grammar} (h : b.build = .ok g) {id : RuleId}
    {entry : String × Option Rule} (hentry : b.entries[id]? = some entry) :
    ∃ body, entry.2 = some body ∧ body.Within b.entries.length b.lexicon.tags.length ∧
      g.rule? id = some ⟨entry.1, body.normalize b.features⟩ := by
  obtain ⟨-, -, -, hrules, -⟩ := build_eq_ok.mp h
  obtain ⟨hlength, hget⟩ := List.forall₂_iff_get.mp hrules
  obtain ⟨hid, rfl⟩ := List.getElem?_eq_some_iff.mp hentry
  have hid' : id < g.rules.length := hlength ▸ hid
  obtain ⟨body, hbody, hwithin, hd⟩ := definition_eq_ok.mp (hget id hid hid')
  exact ⟨body, hbody, hwithin, (List.getElem?_eq_getElem hid').trans (congrArg some hd)⟩

theorem names_of_build {g : Grammar} (h : b.build = .ok g) :
    g.rules.map (·.name) = b.entries.map (·.1) := by
  obtain ⟨-, -, -, hrules, -⟩ := build_eq_ok.mp h
  have hnames : List.Forall₂ (fun entry d => entry.1 = d.name) b.entries g.rules :=
    hrules.imp fun entry d hd => by
      obtain ⟨body, -, -, rfl⟩ := definition_eq_ok.mp hd
      rfl
  rw [eq_comm, ← List.forall₂_eq_eq_eq, List.forall₂_map_left_iff, List.forall₂_map_right_iff]
  exact hnames

/-- The bodies of the grammar are those given, normalised. -/
theorem body_of_build {g : Grammar} (h : b.build = .ok g) {d : Definition} (hd : d ∈ g.rules) :
    ∃ body : Rule, body.Within b.entries.length b.lexicon.tags.length ∧
      d.body = body.normalize b.features := by
  obtain ⟨-, -, -, hrules, -⟩ := build_eq_ok.mp h
  obtain ⟨id, hid, rfl⟩ := List.mem_iff_getElem.mp hd
  obtain ⟨body, -, hwithin, hrule⟩ :=
    rule?_of_build h (List.getElem?_eq_getElem (hrules.length_eq ▸ hid))
  rw [rule?, List.getElem?_eq_getElem hid] at hrule
  exact ⟨body, hwithin, congrArg Definition.body (Option.some.inj hrule)⟩

theorem closed_of_build {g : Grammar} (h : b.build = .ok g) : g.Closed := by
  obtain ⟨-, -, -, hrules, hlexicon, -⟩ := build_eq_ok.mp h
  intro d hd
  obtain ⟨body, hwithin, heq⟩ := body_of_build h hd
  rw [heq, ← hrules.length_eq, hlexicon]
  exact Rule.within_normalize b.features body hwithin

theorem starts_of_build {g : Grammar} (h : b.build = .ok g) :
    ∀ start ∈ g.starts, start.rule < g.rules.length := by
  obtain ⟨-, -, hstarts, hrules, -, hstarts', -⟩ := build_eq_ok.mp h
  rw [hstarts', ← hrules.length_eq]
  exact hstarts

end Build

section Outcome

variable {lexicon : Lexicon} {steps : List Step} {g : Grammar}

theorem Reflects.length_entries (h : b.Reflects lexicon steps) :
    b.entries.length = (declared steps).length := by
  rw [← h.holds.names, List.length_map]

theorem Reflects.getElem?_entries (h : b.Reflects lexicon steps) {id : RuleId} {name : String}
    (hname : (declared steps)[id]? = some name) : ∃ body?, b.entries[id]? = some (name, body?) := by
  rw [← h.holds.names, List.getElem?_map] at hname
  obtain ⟨⟨name', body?⟩, hentry, rfl⟩ := Option.map_eq_some_iff.mp hname
  exact ⟨body?, hentry⟩

theorem Reflects.wellFormed (h : b.Reflects lexicon steps) (hbuild : b.build = .ok g) :
    WellFormed lexicon steps := by
  obtain ⟨hfaults, hsome, hstarts, -⟩ := build_eq_ok.mp hbuild
  have hhits := h.holds.faults.mp hfaults
  refine ⟨hhits, h.starts ▸ hsome, ?_, fun id hid => ?_, fun d hd => ?_⟩
  · rw [← h.starts, ← h.length_entries]
    exact hstarts
  · obtain ⟨body?, hentry⟩ := h.getElem?_entries (List.getElem?_eq_getElem hid)
    obtain ⟨body, rfl, -⟩ := rule?_of_build hbuild hentry
    exact ⟨body, (h.holds.bodies hhits id body).mp ⟨_, hentry⟩⟩
  · obtain ⟨name, hentry⟩ := (h.holds.bodies hhits d.1 d.2).mpr hd
    obtain ⟨body, hbody, hwithin, -⟩ := rule?_of_build hbuild hentry
    cases hbody
    rw [← h.length_entries, ← h.lexicon]
    exact hwithin

theorem Reflects.builds (h : b.Reflects lexicon steps) (hsteps : WellFormed lexicon steps) :
    ∃ g, b.build = .ok g := by
  refine ⟨⟨b.lexicon, b.entries.map fun entry =>
    ⟨entry.1, (entry.2.getD .empty).normalize b.features⟩, b.starts, b.features⟩, ?_⟩
  refine build_eq_ok.mpr ⟨h.holds.faults.mpr hsteps.hits, h.starts ▸ hsteps.someStart, ?_, ?_,
    rfl, rfl, rfl⟩
  · rw [h.starts, h.length_entries]
    exact hsteps.starts
  · rw [List.forall₂_map_right_iff, List.forall₂_same]
    intro entry hmem
    obtain ⟨id, hid, hentry⟩ := List.mem_iff_getElem.mp hmem
    obtain ⟨body, hbody⟩ := hsteps.bodies id (h.length_entries ▸ hid)
    obtain ⟨name, hname⟩ := (h.holds.bodies hsteps.hits id body).mpr hbody
    obtain rfl : entry = (name, some body) := by
      rw [List.getElem?_eq_getElem hid, hentry] at hname
      exact Option.some.inj hname
    refine definition_eq_ok.mpr ⟨body, rfl, ?_, rfl⟩
    rw [h.length_entries, h.lexicon]
    exact hsteps.within (id, body) hbody

theorem Reflects.renders (h : b.Reflects lexicon steps) (hbuild : b.build = .ok g) :
    g.Renders lexicon steps := by
  obtain ⟨hfaults, -, -, hrules, hlexicon, hstarts, hfeatures⟩ := build_eq_ok.mp hbuild
  refine ⟨hlexicon.trans h.lexicon, hstarts.trans h.starts, hfeatures.trans h.features,
    hrules.length_eq.symm.trans h.length_entries, fun id name hname => ?_⟩
  obtain ⟨body?, hentry⟩ := h.getElem?_entries hname
  obtain ⟨body, rfl, -, hrule⟩ := rule?_of_build hbuild hentry
  exact ⟨body, (h.holds.bodies (h.holds.faults.mp hfaults) id body).mp ⟨name, hentry⟩,
    h.features ▸ hrule⟩

theorem Reflects.sound (h : b.Reflects lexicon steps) (hbuild : b.build = .ok g) : g.Sound := by
  have hnodup : (g.rules.map (·.name)).Nodup := by
    rw [names_of_build hbuild, h.holds.names]
    exact nodup_declared steps
  refine ⟨hnodup, fun id hid => ?_, ?_, fun d hd feature inner hmem => ?_, fun d hd => ?_⟩
  · have hname : g.name id = g.rules[id].name := by
      rw [name, rule?, List.getElem?_eq_getElem hid]
      rfl
    have hdistinct := List.pairwise_iff_getElem.mp (List.pairwise_map.mp hnodup)
    refine List.findIdx?_eq_some_iff_getElem.mpr ⟨hid, by simp [hname], fun j hj hsame => ?_⟩
    exact hdistinct j id (Nat.lt_trans hj hid) hid hj (by simpa [hname] using hsame)
  · exact starts_of_build hbuild
  · obtain ⟨body, -, heq⟩ := body_of_build hbuild hd
    rw [heq] at hmem
    exact Rule.isNormal_normalize b.features body _ hmem
  · exact closed_of_build hbuild d hd

end Outcome

end Builder

/-- Just the well-formed lists of steps build, each the grammar that it describes; that one is
sound, and no run of it comes to a rule that it lacks. -/
theorem ofSteps_wellFormed (lexicon : Lexicon) (steps : List Step) :
    ((∃ g, ofSteps lexicon steps = .ok g) ↔ WellFormed lexicon steps) ∧
      ∀ g, ofSteps lexicon steps = .ok g →
        g.Renders lexicon steps ∧ g.Sound ∧ g.SelfContained := by
  have h := Builder.reflects_run lexicon steps
  refine ⟨⟨?_, h.builds⟩, fun g hg => ?_⟩
  · rintro ⟨g, hg⟩
    exact h.wellFormed hg
  · have hsound := h.sound hg
    exact ⟨h.renders hg, hsound, hsound.closed.selfContained⟩

/-- A name that is referred to before it comes up, declared twice, with a feature enabled last. -/
def laterSteps : List Step :=
  [.rule "List" (.sequence [.nonterminal 1, .switch "many" (.repetition (.nonterminal 1))]),
    .start 0 .always, .declare "Item", .declare "List", .define 1 (.terminal 0), .enable "many"]

theorem ofSteps_wellFormed_later : ∃ g, ofSteps Samples.lists.lexicon laterSteps = .ok g ∧
    g.Renders Samples.lists.lexicon laterSteps ∧ g.Sound ∧ g.SelfContained := by
  have hsome : (ofSteps Samples.lists.lexicon laterSteps).toOption.isSome = true := by
    decide +kernel
  obtain ⟨g, hg⟩ := Option.isSome_iff_exists.mp hsome
  have hok := ok_of_toOption hg
  exact ⟨g, hok, (ofSteps_wellFormed Samples.lists.lexicon laterSteps).2 g hok⟩

end Grammar
end Multipath
