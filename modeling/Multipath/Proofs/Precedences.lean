import Multipath.Proofs.Boundaries
import Multipath.Proofs.CounterpartTrees
import Multipath.Proofs.Depths

/-!
The feature `precedences` of Aether is a conservative extension. Where a text is parsed without it,
its clause is tried behind the front of a header only, at boundaries between productions, and what
it begins with is never there. It is found missing before rules nest deeper than they do anyway. So
the session with the feature goes along with the one without it, and finds the same tree.
-/

namespace Multipath

theorem Run.Valid.leads_of_known {s : Session} {c : Scope s.source} {run : Run} (hv : run.Valid s c)
    {r : RuleId} {definition : Grammar.Definition} {p q : Position} (h : run.Known r p q)
    (hdef : s.grammar.rule? r = some definition) : run.Leads s definition.body p q := by
  obtain ⟨id, -, hm, hq⟩ := h
  obtain ⟨out, hd, -⟩ := hv.settled p r id hm
  obtain ⟨definition', hdef', hleads⟩ := hv.backed id r p out hd
  obtain rfl := Option.some.inj (hdef.symm.trans hdef')
  rw [Arena.output_of_derived hd] at hq
  exact hv.leads_of_settled (hleads q hq)

theorem Grammar.Leads.refers_of_mem {g : Grammar} {reads : Position → Token → Prop}
    {refers : RuleId → Position → Position → Prop} {items : List Rule} {p q : Position}
    (h : g.Leads reads refers (.sequence items) p q) {r : RuleId} (hr : .nonterminal r ∈ items) :
    ∃ m m', refers r m m' := by
  induction items generalizing p with
  | nil => cases hr
  | cons item items ih =>
      cases h with
      | cons hitem hitems =>
          obtain rfl | hr := List.mem_cons.mp hr
          · cases hitem with
            | nonterminal hrefers => exact ⟨_, _, hrefers⟩
          · exact ih hitems hr

namespace Aether

variable {s s' : Session} {lexicon : Lexicon} {p q m : Position} {r r' : RuleId} {n n' : Nat}

/-- How many references lead to a production from the whole grammar at least. -/
def rank (r : RuleId) : Nat := [0, 1, 2, 2][r]?.getD 3

namespace Plain

theorem production_of_rule? (h : Plain s) {definition : Grammar.Definition}
    (hdef : s.grammar.rule? r = some definition) :
    (∃ x : Production, x ≠ .header ∧ x.id = r ∧ definition = ⟨x.name, x.rule⟩) ∨
      r = Production.header.id ∧ definition =
        ⟨Production.header.name, .sequence (headerFront ++ [.terminal Tag.colon])⟩ := by
  obtain ⟨features, hwithout, hs⟩ := h.grammar
  rw [hs] at hdef
  obtain ⟨x, rfl, rfl⟩ := Aether.production_of_rule? hdef
  by_cases hx : x = .header
  · subst hx
    rw [Production.built_header_of_not_mem hwithout]
    exact .inr ⟨rfl, rfl⟩
  · rw [x.built_eq hx]
    exact .inl ⟨x, hx, rfl, rfl⟩

theorem climbs (h : Plain s) : s.grammar.Climbs rank := by
  intro r definition hdef r' hr'
  have hmentions : definition.body.mentionsOnly (fun _ => true)
      (fun r' => rank r' ≤ rank r + 1) = true := by
    obtain ⟨x, hx, rfl, rfl⟩ | ⟨rfl, rfl⟩ := h.production_of_rule? hdef
    · clear hdef hr'
      revert hx
      cases x <;> decide
    · decide
  simpa using Rule.rules_of_mentionsOnly hmentions hr'

/-- What is parsed has a selection in it, three references below the whole. -/
theorem four_le_maxDepth (h : Plain s) {trailing : Bool} {x : Parse}
    (hselect : s.grammar.selectStart s.source.conditions = .ok Production.grammar.id)
    (hparse : s.parse trailing .start = .ok x) : 4 ≤ s.maxDepth := by
  obtain ⟨root, run, stop, -, hderive, hwinner, -⟩ := Session.parse_eq_ok hselect hparse
  obtain ⟨hv, -, hm⟩ := (Session.derive_sound (c := .everywhere s.source) Production.grammar.id
    .start {} Run.valid_empty (.inl trivial)).of_run hderive
  have hbelow := (Session.derive_below h.climbs (by decide) .start).of_run hderive
  have hknown := hv.known (hm root rfl) (Session.winner?_eq_some.mp hwinner).1.1
  obtain ⟨_, _, hproduction⟩ := (hv.leads_of_known hknown (h.rule? (by decide))).refers_of_mem
    (r := Production.production.id) (by decide)
  obtain ⟨_, _, hbody⟩ := (hv.leads_of_known hproduction (h.rule? (by decide))).refers_of_mem
    (r := Production.body.id) (by decide)
  obtain ⟨_, _, id, -, hm, -⟩ := (hv.leads_of_known hbody (h.rule? (by decide))).refers_of_mem
    (r := Production.selection.id) (by decide)
  exact hbelow _ _ id hm

end Plain

/-- References that the session with the clause for precedences answers like the one without, where
`n` levels are left. -/
structure Answered (s : Session) (n : Nat) (r : RuleId) (p : Position) : Prop where
  visible : r ≠ Production.precedences.id
  grammar : r = Production.grammar.id → p = .start ∧ 4 ≤ n
  production : r = Production.production.id → Plain.Boundary s p ∧ 3 ≤ n
  header : r = Production.header.id → Plain.Boundary s p ∧ 2 ≤ n

namespace Answered

theorem deeper (h : Answered s n r p) (hle : n ≤ n') : Answered s n' r p where
  visible := h.visible
  grammar heq := ⟨(h.grammar heq).1, Nat.le_trans (h.grammar heq).2 hle⟩
  production heq := ⟨(h.production heq).1, Nat.le_trans (h.production heq).2 hle⟩
  header heq := ⟨(h.header heq).1, Nat.le_trans (h.header heq).2 hle⟩

/-- Neither the clause for precedences nor a production around it. -/
def inner (r : RuleId) : Bool :=
  r ∉ [Production.grammar.id, Production.production.id, Production.header.id,
    Production.precedences.id]

theorem of_inner (h : inner r = true) (n : Nat) (p : Position) : Answered s n r p := by
  constructor
  all_goals
    rintro rfl
    exact absurd h (by decide)

/-- What a production asks for, a level below. -/
theorem of_asks (h : Plain s) {definition : Grammar.Definition} (ha : Answered s (n + 1) r p)
    (hdef : s.grammar.rule? r = some definition)
    (hasks : s.Asks definition.body p (.reference r' m)) : Answered s n r' m := by
  have hmem := Grammar.Asks.mem_parts hasks
  obtain ⟨x, hx, rfl, rfl⟩ | ⟨rfl, rfl⟩ := h.production_of_rule? hdef
  · by_cases hgrammar : x = .grammar
    · subst hgrammar
      obtain ⟨rfl, hdepth⟩ := ha.grammar rfl
      obtain ⟨rfl, hm⟩ : r' = Production.production.id ∧ Plain.Boundary s m := by
        cases hasks with
        | head hitem =>
            cases hitem
            exact ⟨rfl, .stop⟩
        | rest hfirst hasks =>
            cases hasks with
            | head hitem =>
                cases hitem with
                | iteration hrest hitem =>
                    cases hitem
                    exact ⟨rfl, .again (Session.ends_iff_leads.mpr hfirst)
                      (Session.ends_iff_leads.mpr hrest)⟩
            | rest _ hasks => cases hasks
      exact ⟨by decide, nofun, fun _ => ⟨hm, Nat.le_of_succ_le_succ hdepth⟩, nofun⟩
    · by_cases hproduction : x = .production
      · subst hproduction
        obtain ⟨hboundary, hdepth⟩ := ha.production rfl
        cases hasks with
        | head hitem =>
            cases hitem
            exact ⟨by decide, nofun, nofun, fun _ => ⟨hboundary, Nat.le_of_succ_le_succ hdepth⟩⟩
        | rest _ hasks =>
            cases hasks with
            | head hitem =>
                cases hitem
                exact of_inner (by decide) n _
            | rest _ hasks => cases hasks
      · have hmentions : x.rule.mentionsOnly (fun _ => true) inner = true := by
          clear hdef hasks hmem ha
          revert hx hgrammar hproduction
          cases x <;> decide
        exact of_inner (Rule.rules_of_mentionsOnly hmentions hmem) n m
  · have hmentions : (Rule.sequence (headerFront ++ [.terminal Tag.colon])).mentionsOnly
        (fun _ => true) inner = true := by decide
    exact of_inner (Rule.rules_of_mentionsOnly hmentions hmem) n m

end Answered

/-- The second session is the first one with the clause for precedences. -/
structure Adds (s s' : Session) : Prop where
  plain : Plain s
  source : s'.source = s.source
  maxDepth : s'.maxDepth = s.maxDepth
  grammar : ∃ features, Aether.precedences ∈ features ∧
    s'.grammar = builtOn s.grammar.lexicon features

namespace Adds

theorem rule? (h : Adds s s') {x : Production} (hx : x ≠ .header) :
    s'.grammar.rule? x.id = some ⟨x.name, x.rule⟩ := by
  obtain ⟨features, -, hs⟩ := h.grammar
  rw [hs, rule?_builtOn, x.built_eq hx]

theorem rule?_header (h : Adds s s') : s'.grammar.rule? Production.header.id =
    some ⟨Production.header.name, .sequence (headerFront ++
      [.optional (.nonterminal Production.precedences.id), .terminal Tag.colon])⟩ := by
  obtain ⟨features, hwith, hs⟩ := h.grammar
  rw [hs, rule?_builtOn, Production.built_header_of_mem hwith]

theorem name_eq (h : Adds s s') (r : RuleId) : s'.grammar.name r = s.grammar.name r := by
  obtain ⟨features, -, hs⟩ := h.plain.grammar
  obtain ⟨features', -, hs'⟩ := h.grammar
  rw [hs, hs']
  simp [Grammar.name, Grammar.rule?, builtOn, Option.map_map, Function.comp_def]

theorem rule?_eq_none (h : Adds s s') (hdef : s.grammar.rule? r = none) :
    s'.grammar.rule? r = none := by
  obtain ⟨features, -, hs⟩ := h.plain.grammar
  obtain ⟨features', -, hs'⟩ := h.grammar
  rw [hs, Grammar.rule?, builtOn, List.getElem?_map, Option.map_eq_none_iff] at hdef
  rw [hs', Grammar.rule?, builtOn, List.getElem?_map, hdef]
  rfl

/-- At boundaries, no clause for precedences is there. -/
theorem misses (h : Adds s s') {trailing : Bool}
    (hends : s.Ends (.nonterminal Production.grammar.id) .start q)
    (huses : s.usesUp trailing q = true) (hp : Plain.Boundary s p)
    (hfront : s.Ends (.sequence headerFront) p m) :
    s.Misses s' (· = Production.precedences.id) Production.precedences.id m := by
  refine ⟨rfl, _, _, _, h.rule? (by decide), fun t ht => ?_⟩
  obtain ⟨q', hproduction⟩ | hnone := h.plain.production_of_boundary hends huses hp
  · exact h.plain.not_greaterThan_of_front hproduction hfront ht
  · obtain ⟨t', ht'⟩ := Plain.token_of_front hfront
    exact absurd ht' (hnone t')

/-- Where all of a text is a list of productions, the session with the clause goes along with the
one without. -/
def counterpart (h : Adds s s') {trailing : Bool}
    (hends : s.Ends (.nonterminal Production.grammar.id) .start q)
    (huses : s.usesUp trailing q = true) : Counterpart s s' where
  σ := .refl
  hidden r := r = Production.precedences.id
  answered := Answered s
  maxDepth_eq := h.maxDepth
  lexicon_eq := by
    obtain ⟨features, -, hs⟩ := h.grammar
    rw [hs]
    rfl
  name_eq := h.name_eq
  length_eq := by rw [h.source]; rfl
  place hp := h.source ▸ hp
  token {p} _ := by
    rw [h.source]
    exact (relocateRead_refl _).symm
  skip _ := by
    rw [h.source]
    rfl
  visible ha := ha.visible
  deeper hle ha := ha.deeper hle
  body {n r p} ha _ := by
    cases hdef : s.grammar.rule? r with
    | none => exact .inl ⟨rfl, h.rule?_eq_none hdef⟩
    | some definition =>
        have hasks (r' : RuleId) (m : Position)
            (hasks : s.Asks definition.body p (.reference r' m)) : Answered s n r' m :=
          .of_asks h.plain ha hdef hasks
        obtain ⟨x, hx, rfl, rfl⟩ | ⟨rfl, rfl⟩ := h.plain.production_of_rule? hdef
        · refine .inr ⟨_, _, rfl, h.rule? hx, .same ?_ hasks⟩
          have hmentions : x.rule.mentionsOnly (fun _ => true) (fun _ => true) = true := by
            clear hdef hasks ha
            revert hx
            cases x <;> decide
          exact Rule.switchedAlike_of_mentionsOnly hmentions _ _
        · obtain ⟨hboundary, hdepth⟩ := ha.header rfl
          have hmentions : (Rule.sequence (headerFront ++ [.terminal Tag.colon])).mentionsOnly
              (fun _ => true) (fun _ => true) = true := by decide
          exact .inr ⟨_, _, rfl, h.rule?_header, .idle (by omega) (by simp)
            (Rule.switchedAlike_of_mentionsOnly hmentions _ _) hasks
            fun m hfront => h.misses hends huses hboundary hfront⟩

/-- Without the clause a text is parsed only if it is with it, to the same tree. -/
theorem parse_eq (h : Adds s s') {trailing : Bool} {x : Parse}
    (hparse : s.parse trailing .start = .ok x) :
    ∃ x', s'.parse trailing .start = .ok x' ∧ x'.tree = x.tree := by
  obtain ⟨features, -, hs⟩ := h.plain.grammar
  obtain ⟨features', -, hs'⟩ := h.grammar
  have hselect : s.grammar.selectStart s.source.conditions = .ok Production.grammar.id := by
    rw [hs]
    rfl
  have hselect' : s'.grammar.selectStart s'.source.conditions = .ok Production.grammar.id := by
    rw [hs']
    rfl
  obtain ⟨ts, hsentence, -⟩ := Session.sentence_of_parse hselect hparse
  obtain ⟨q, hends, huses⟩ := Session.sentence_iff.mp ⟨ts, hsentence⟩
  have hdepth := h.plain.four_le_maxDepth hselect hparse
  have hparses := (h.counterpart hends huses).parse_alike trailing (Source.isPlace_start _)
    (hselect'.trans hselect.symm) fun rule hrule => by
      obtain rfl := Except.ok.inj (hselect.symm.trans hrule)
      exact ⟨by decide, fun _ => ⟨rfl, hdepth⟩, nofun, nofun⟩
  rw [hparse] at hparses
  obtain ⟨x', hx', htree⟩ := hparses.tree_eq
  exact ⟨x', hx', htree.trans x.tree.relocate_refl⟩

end Adds

/-- The feature `precedences` is a conservative extension: what is parsed without it, under any
conditions and options, is parsed with it to the same tree. -/
theorem precedences_conservative {g g' : Grammar} (hg : Aether.grammar ∅ = .ok g)
    (hg' : Aether.grammar {Aether.precedences} = .ok g') {options : ParseOptions}
    {conditions : Conditions} {text : String} {filename : Option String} {x : Parse}
    (h : g.parse options conditions text filename = .ok x) :
    ∃ x', g'.parse options conditions text filename = .ok x' ∧ x'.tree = x.tree := by
  obtain ⟨lexicon, hlexicon⟩ := exists_lexicon
  obtain rfl := Except.ok.inj ((grammar_eq hlexicon _).symm.trans hg)
  obtain rfl := Except.ok.inj ((grammar_eq hlexicon _).symm.trans hg')
  have hadds : Adds
      (.ofText (builtOn lexicon ∅) conditions text filename options.maxDepth)
      (.ofText (builtOn lexicon {Aether.precedences}) conditions text filename
        options.maxDepth) :=
    ⟨⟨hlexicon, ∅, by simp, rfl⟩, rfl, rfl, _, by simp, rfl⟩
  exact hadds.parse_eq h

/-- A production that has no clause for precedences. -/
theorem precedences_conservative_production : ∃ g g' x x',
    Aether.grammar ∅ = .ok g ∧ Aether.grammar {Aether.precedences} = .ok g' ∧
      g.parse {} ∅ "a:b;" none = .ok x ∧ g'.parse {} ∅ "a:b;" none = .ok x' ∧
        x'.tree = x.tree := by
  let session (l : Lexicon) : Session := .ofText (builtOn l ∅) ∅ "a:b;" none 256
  let derived (l : Lexicon) := ((session l).derive Production.grammar.id .start).run.run {}
  have hall : Aether.lexicon.toOption.map (fun l =>
      (derived l).1.toOption == some 7 && ((derived l).2.arena.output 7).toList == [⟨4, 1, 5⟩] &&
        (session l).usesUp true ⟨4, 1, 5⟩ &&
        (((session l).branch Production.grammar.id .start ⟨4, 1, 5⟩).run.run
          { run := (derived l).2.setOutput 7 {⟨4, 1, 5⟩} }).1.toOption.map Option.isSome ==
            some true) = some true := by
    decide +kernel
  obtain ⟨lexicon, h⟩ := exists_lexicon
  simp only [h, Except.toOption, Option.map_some, Option.some.injEq, Bool.and_eq_true,
    beq_iff_eq] at hall
  obtain ⟨⟨⟨hroot, hpaths⟩, huses⟩, hbranch⟩ := hall
  have hmem (p : Position) : p ∈ (derived lexicon).2.arena.output 7 ↔ p = ⟨4, 1, 5⟩ := by
    rw [← Std.ExtTreeSet.mem_toList, hpaths, List.mem_singleton]
  have hwinner : (session lexicon).winner? true ((derived lexicon).2.arena.output 7) =
      some ⟨4, 1, 5⟩ :=
    Session.winner?_eq_some.mpr ⟨⟨(hmem _).mpr rfl, huses⟩, fun p hp _ => by
      rw [(hmem p).mp hp]
      decide⟩
  -- One fact at a time, or unifying them has the parse computed again.
  have hselect : (session lexicon).grammar.selectStart (session lexicon).source.conditions =
      .ok Production.grammar.id := rfl
  have hderive : ((session lexicon).derive Production.grammar.id .start).run.run {} =
      (.ok 7, (derived lexicon).2) :=
    Prod.ext (ok_of_toOption hroot) rfl
  have hparses := Session.parse_of_branch hselect hderive hwinner hbranch
  obtain ⟨x, hparse⟩ : ∃ x, (builtOn lexicon ∅).parse {} ∅ "a:b;" none = .ok x := hparses
  have hg := grammar_eq h ∅
  have hg' := grammar_eq h {Aether.precedences}
  obtain ⟨x', hparse', htree⟩ := precedences_conservative hg hg' hparse
  exact ⟨_, _, x, x', hg, hg', hparse, hparse', htree⟩

end Aether
end Multipath
