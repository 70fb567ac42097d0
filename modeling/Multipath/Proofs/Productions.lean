import Multipath.Aether.Grammar

/-!
The grammar of Aether as it comes out of its builder. Whatever the features, there is one rule for
each production, at the place of that production; the features decide nothing but whether the
header has a clause for precedences.
-/

namespace Multipath

namespace Grammar.Builder

theorem run_bind_snd {α β : Type} (x : StateM Builder α) (f : α → StateM Builder β) (b : Builder) :
    ((x >>= f).run b).2 = ((f (x.run b).1).run (x.run b).2).2 := rfl

theorem run_declare_new (b : Builder) (name : String) (h : ∀ e ∈ b.entries, e.1 ≠ name) :
    (declare name).run b =
      (b.entries.length, { b with entries := b.entries ++ [(name, none)] }) := by
  have hnone : b.entries.findIdx? (·.1 == name) = none := by
    simpa [List.findIdx?_eq_none_iff] using fun a b hab => h (a, b) hab
  rw [declare, StateT.run_modifyGet, hnone]
  rfl

theorem run_define_open (b : Builder) {id : RuleId} {name : String} (body : Rule)
    (h : b.entries[id]? = some (name, none)) : (define id body).run b =
      ((), { b with entries := b.entries.set id (name, some body) }) := by
  simp only [define, StateT.run_bind, StateT.run_get, pure_bind, h]
  rfl

/-- Names that are new are declared one after the other. -/
theorem run_declareAll {ι : Type} (name : ι → String) (is : List ι) (b : Builder)
    (h : (b.entries.map (·.1) ++ is.map name).Nodup) :
    ((forIn is PUnit.unit fun i _ => do
      discard <| declare (name i)
      pure (ForInStep.yield PUnit.unit) : StateM Builder PUnit).run b).2 =
        { b with entries := b.entries ++ is.map fun i => (name i, none) } := by
  induction is generalizing b with
  | nil =>
      simp only [List.map_nil, List.append_nil]
      rfl
  | cons i is ih =>
      have hnew : ∀ e ∈ b.entries, e.1 ≠ name i := fun e he heq =>
        (List.nodup_append.mp h).2.2 _ (List.mem_map_of_mem he) (name i) (by simp) heq
      have hrest := ih { b with entries := b.entries ++ [(name i, none)] } (by simpa using h)
      rw [List.forIn_cons]
      change ((forIn is PUnit.unit _ : StateM Builder PUnit).run
        ((declare (name i)).run b).2).2 = _
      rw [run_declare_new b _ hnew, hrest, List.append_assoc]
      rfl

/-- Names that were declared in this order get their bodies one after the other. -/
theorem run_defineAll {ι : Type} (name : ι → String) (id : ι → RuleId) (body : ι → Rule)
    (done is : List ι) (b : Builder)
    (hentries : b.entries =
      (done.map fun i => (name i, some (body i))) ++ is.map fun i => (name i, none))
    (hids : ∀ n i, (done ++ is)[n]? = some i → id i = n) :
    ((forIn is PUnit.unit fun i _ => do
      define (id i) (body i)
      pure (ForInStep.yield PUnit.unit) : StateM Builder PUnit).run b).2 =
        { b with entries := (done ++ is).map fun i => (name i, some (body i)) } := by
  induction is generalizing done b with
  | nil =>
      simp only [List.append_nil, ← hentries.trans (List.append_nil _)]
      rfl
  | cons i is ih =>
      have hid : id i = done.length := hids done.length i (by simp)
      have hopen : b.entries[id i]? = some (name i, none) := by simp [hentries, hid]
      have hrest := ih (done ++ [i])
        { b with entries := b.entries.set (id i) (name i, some (body i)) }
        (by simp [hentries, hid]) (by simpa using hids)
      rw [List.forIn_cons]
      change ((forIn is PUnit.unit _ : StateM Builder PUnit).run
        ((define (id i) (body i)).run b).2).2 = _
      rw [run_define_open b _ hopen, hrest, List.append_assoc]
      rfl

end Grammar.Builder

namespace Aether

open Grammar (Builder)
open Grammar.Builder (run_bind_snd)

variable {features : Features} {lexicon : Lexicon}

/-- The body that a production has under features. -/
def Production.built (features : Features) (p : Production) : Rule := p.rule.normalize features

/-- What the grammar is built to. -/
def builtOn (lexicon : Lexicon) (features : Features) : Grammar where
  lexicon
  rules := Production.all.map fun p => ⟨p.name, p.built features⟩
  starts := [⟨Production.grammar.id, .always⟩]
  features

theorem Production.getElem?_all (p : Production) : Production.all[p.id]? = some p := by
  cases p <;> rfl

theorem Production.id_eq {n : Nat} {p : Production} (h : Production.all[n]? = some p) :
    p.id = n := by
  obtain ⟨hn, rfl⟩ := List.getElem?_eq_some_iff.mp h
  have hall : ∀ i : Fin 20, Production.all[i.val].id = i := by decide
  exact hall ⟨n, hn⟩

theorem run_productions (lexicon : Lexicon) (features : Features) :
    ((productions features).run { lexicon }).2 =
      { lexicon
        entries := Production.all.map fun p => (p.name, some p.rule)
        starts := [⟨Production.grammar.id, .always⟩]
        features } := by
  have hnodup : (Production.all.map Production.name).Nodup := by decide
  have hdeclare := Builder.run_declareAll Production.name Production.all { lexicon } hnodup
  have hdefine := Builder.run_defineAll Production.name Production.id Production.rule []
    Production.all { lexicon, entries := Production.all.map fun p => (p.name, none) } rfl
    fun _ _ => Production.id_eq
  have hfeatures : (∅ : Features).insertMany features.toList = features :=
    Std.ExtTreeSet.ext_mem fun f => by simp [Std.ExtTreeSet.mem_insertMany_list]
  rw [productions, run_bind_snd, hdeclare, run_bind_snd, List.nil_append, hdefine]
  refine Eq.trans ?_ (congrArg (Builder.mk lexicon _ _ · []) hfeatures)
  rfl

theorem foreignReference?_rule (p : Production) :
    Builder.foreignReference? Production.all.length 31 p.rule = none := by
  cases p <;> decide +kernel

theorem length_tags (h : Aether.lexicon = .ok lexicon) : lexicon.tags.length = 31 := by
  have hlength : (Aether.lexicon.toOption.map (·.tags.length)) = some 31 := by decide +kernel
  simpa [h, Except.toOption] using hlength

theorem exists_lexicon : ∃ lexicon, Aether.lexicon = .ok lexicon := by
  have hsome : Aether.lexicon.toOption.isSome = true := by decide +kernel
  cases h : Aether.lexicon with
  | ok lexicon => exact ⟨lexicon, rfl⟩
  | error e => simp [h, Except.toOption] at hsome

/-- The grammar can be built whatever the features. -/
theorem grammar_eq (h : Aether.lexicon = .ok lexicon) (features : Features) :
    grammar features = .ok (builtOn lexicon features) := by
  have hdefinition (b : Builder) (hlength : b.entries.length = Production.all.length)
      (hlexicon : b.lexicon = lexicon) (ps : List Production) :
      (ps.map fun p => (p.name, some p.rule)).mapM b.definition =
        .ok (ps.map fun p => ⟨p.name, p.rule.normalize b.features⟩) := by
    induction ps with
    | nil => rfl
    | cons p ps ih =>
        have hp : b.definition (p.name, some p.rule) =
            .ok ⟨p.name, p.rule.normalize b.features⟩ := by
          simp only [Builder.definition, hlength, hlexicon, length_tags h,
            foreignReference?_rule]
        rw [List.map_cons, List.mapM_cons, hp, ih]
        rfl
  have hstart (b : Builder) (hlength : b.entries.length = Production.all.length)
      (hstarts : b.starts = [⟨Production.grammar.id, .always⟩]) : b.foreignStart? = none := by
    rw [Builder.foreignStart?, hstarts, hlength]
    rfl
  simp only [grammar, h, bind, Except.bind, Grammar.assemble, run_productions, Builder.build]
  rw [hstart _ (List.length_map _) rfl]
  dsimp only
  rw [hdefinition _ (List.length_map _) rfl]
  rfl

theorem rule?_builtOn (p : Production) :
    (builtOn lexicon features).rule? p.id = some ⟨p.name, p.built features⟩ := by
  rw [Grammar.rule?, builtOn, List.getElem?_map, p.getElem?_all]
  rfl

theorem production_of_rule? {r : RuleId} {definition : Grammar.Definition}
    (h : (builtOn lexicon features).rule? r = some definition) :
    ∃ p : Production, p.id = r ∧ definition = ⟨p.name, p.built features⟩ := by
  rw [Grammar.rule?, builtOn, List.getElem?_map] at h
  obtain ⟨p, hp, rfl⟩ := Option.map_eq_some_iff.mp h
  exact ⟨p, Production.id_eq hp, rfl⟩

/-- The features decide about the header only. -/
theorem Production.built_eq {p : Production} (hp : p ≠ .header) : p.built features = p.rule := by
  cases p <;> first | exact absurd rfl hp | rfl

/-- The header in front of the clause for precedences. -/
def headerFront : List Rule :=
  [.terminal Tag.identifier, .optional (.nonterminal Production.condition.id),
    .optional (.nonterminal Production.specifiers.id)]

theorem Production.normalize_header : Production.header.built features =
    Rule.sequenceOf ([.terminal Tag.identifier, .optional (.nonterminal condition.id),
      .optional (.nonterminal specifiers.id), if Aether.precedences ∈ features then
        .optional (.nonterminal precedences.id) else .empty, .terminal Tag.colon].flatMap
          Rule.sequenceItems) := rfl

theorem Production.built_header_of_mem (h : Aether.precedences ∈ features) :
    Production.header.built features = .sequence
      (headerFront ++ [.optional (.nonterminal precedences.id), .terminal Tag.colon]) := by
  rw [normalize_header, if_pos h]
  rfl

theorem Production.built_header_of_not_mem (h : Aether.precedences ∉ features) :
    Production.header.built features = .sequence (headerFront ++ [.terminal Tag.colon]) := by
  rw [normalize_header, if_neg h]
  rfl

end Aether
end Multipath
