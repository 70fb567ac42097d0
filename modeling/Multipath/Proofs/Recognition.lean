import Multipath.Proofs.Trees

/-!
Recognition. A rule generates lists of tokens in the usual way of context-free grammars; that it
ends at a position means that it generates the tokens on the way there. So a text is parsed when
all of it can be read as tokens that the start rule generates, and its tree has these tokens as
leaves. Of grammars in which a rule met itself only the one direction is claimed.
-/

namespace Multipath

section Generates

/-- The token lists that a rule stands for. -/
inductive Grammar.Generates (g : Grammar) : Rule → List Token → Prop
  | terminal {tag t} : t.hasTag tag = true → Generates g (.terminal tag) [t]
  | nonterminal {rule definition ts} : g.rule? rule = some definition →
      Generates g definition.body ts → Generates g (.nonterminal rule) ts
  | nil : Generates g (.sequence []) []
  | cons {item items ts us} : Generates g item ts → Generates g (.sequence items) us →
      Generates g (.sequence (item :: items)) (ts ++ us)
  | skip {body} : Generates g (.optional body) []
  | take {body ts} : Generates g body ts → Generates g (.optional body) ts
  | stop {body} : Generates g (.repetition body) []
  | again {body ts us} : Generates g body ts → Generates g (.repetition body) us →
      Generates g (.repetition body) (ts ++ us)
  | choice {choice choices ts} : choice ∈ choices → Generates g choice ts →
      Generates g (.alternation choices) ts
  | enabled {feature body ts} : g.isEnabled feature = true → Generates g body ts →
      Generates g (.switch feature body) ts
  | disabled {feature body} : g.isEnabled feature = false → Generates g (.switch feature body) []

theorem Source.Chain.split {src : Source} {p q : Position} {ts us : List Token}
    (h : src.Chain p (ts ++ us) q) : ∃ m, src.Chain p ts m ∧ src.Chain m us q := by
  induction ts generalizing p with
  | nil => exact ⟨p, .nil, h⟩
  | cons t ts ih =>
      cases h with
      | cons ht h =>
          obtain ⟨m, hts, hus⟩ := ih h
          exact ⟨m, .cons ht hts, hus⟩

variable {s : Session} {rule : Rule} {p q : Position}

theorem Session.Ends.generates (h : s.Ends rule p q) :
    ∃ ts, s.source.Chain p ts q ∧ s.grammar.Generates rule ts := by
  induction h with
  | terminal ht htag => exact ⟨_, .single ht, .terminal htag⟩
  | nonterminal hdef _ ih =>
      obtain ⟨ts, hchain, hgen⟩ := ih
      exact ⟨ts, hchain, .nonterminal hdef hgen⟩
  | nil => exact ⟨[], .nil, .nil⟩
  | cons _ _ ih ihs =>
      obtain ⟨ts, hchain, hgen⟩ := ih
      obtain ⟨us, hchain', hgen'⟩ := ihs
      exact ⟨ts ++ us, hchain.append hchain', .cons hgen hgen'⟩
  | skip => exact ⟨[], .nil, .skip⟩
  | take _ ih =>
      obtain ⟨ts, hchain, hgen⟩ := ih
      exact ⟨ts, hchain, .take hgen⟩
  | stop => exact ⟨[], .nil, .stop⟩
  | again _ _ ih ihs =>
      obtain ⟨ts, hchain, hgen⟩ := ih
      obtain ⟨us, hchain', hgen'⟩ := ihs
      exact ⟨ts ++ us, hchain.append hchain', .again hgen hgen'⟩
  | choice hc _ ih =>
      obtain ⟨ts, hchain, hgen⟩ := ih
      exact ⟨ts, hchain, .choice hc hgen⟩
  | enabled hf _ ih =>
      obtain ⟨ts, hchain, hgen⟩ := ih
      exact ⟨ts, hchain, .enabled hf hgen⟩
  | disabled hf => exact ⟨[], .nil, .disabled hf⟩

theorem Grammar.Generates.ends {ts : List Token} (h : s.grammar.Generates rule ts)
    (hchain : s.source.Chain p ts q) : s.Ends rule p q := by
  induction h generalizing p q with
  | terminal htag =>
      cases hchain with
      | cons ht hnil =>
          cases hnil
          exact .terminal ht htag
  | nonterminal hdef _ ih => exact .nonterminal hdef (ih hchain)
  | nil =>
      cases hchain
      exact .nil
  | cons _ _ ih ihs =>
      obtain ⟨m, hts, hus⟩ := hchain.split
      exact .cons (ih hts) (ihs hus)
  | skip =>
      cases hchain
      exact .skip
  | take _ ih => exact .take (ih hchain)
  | stop =>
      cases hchain
      exact .stop
  | again _ _ ih ihs =>
      obtain ⟨m, hts, hus⟩ := hchain.split
      exact .again (ih hts) (ihs hus)
  | choice hc _ ih => exact .choice hc (ih hchain)
  | enabled hf _ ih => exact .enabled hf (ih hchain)
  | disabled hf =>
      cases hchain
      exact .disabled hf

/-- The ends of a rule are where the tokens that it generates lead. -/
theorem Session.ends_iff_generates :
    s.Ends rule p q ↔ ∃ ts, s.source.Chain p ts q ∧ s.grammar.Generates rule ts :=
  ⟨Ends.generates, fun ⟨_, hchain, hgen⟩ => hgen.ends hchain⟩

theorem Tree.tokensAll_append (ts us : List Tree) :
    tokensAll (ts ++ us) = tokensAll ts ++ tokensAll us := by
  induction ts with
  | nil => rfl
  | cons t ts ih => simp [tokensAll, ih]

/-- The leaves of a match are the tokens on the way, and the rule generates them. -/
theorem Grammar.Matches.generates {backs : RuleId → Position → Position → Prop} {ts : List Tree}
    (h : s.grammar.Matches (fun p t => s.source.token p = .ok t) backs rule p q ts) :
    ∃ us, s.source.Chain p us q ∧ Tree.tokensAll ts = us.map s.grammar.leaf ∧
      s.grammar.Generates rule us := by
  induction h with
  | terminal ht htag => exact ⟨_, .single ht, rfl, .terminal htag⟩
  | nonterminal hdef _ _ ih =>
      obtain ⟨us, hchain, hleaves, hgen⟩ := ih
      exact ⟨us, hchain, by simp [Tree.tokensAll, Tree.tokens, hleaves], .nonterminal hdef hgen⟩
  | nil => exact ⟨[], .nil, rfl, .nil⟩
  | cons _ _ ih ihs =>
      obtain ⟨us, hchain, hleaves, hgen⟩ := ih
      obtain ⟨vs, hchain', hleaves', hgen'⟩ := ihs
      refine ⟨us ++ vs, hchain.append hchain', ?_, .cons hgen hgen'⟩
      rw [Tree.tokensAll_append, hleaves, hleaves', List.map_append]
  | skip => exact ⟨[], .nil, rfl, .skip⟩
  | take _ ih =>
      obtain ⟨us, hchain, hleaves, hgen⟩ := ih
      exact ⟨us, hchain, hleaves, .take hgen⟩
  | stop => exact ⟨[], .nil, rfl, .stop⟩
  | again _ _ _ ih ihs =>
      obtain ⟨us, hchain, hleaves, hgen⟩ := ih
      obtain ⟨vs, hchain', hleaves', hgen'⟩ := ihs
      refine ⟨us ++ vs, hchain.append hchain', ?_, .again hgen hgen'⟩
      rw [Tree.tokensAll_append, hleaves, hleaves', List.map_append]
  | choice hc _ ih =>
      obtain ⟨us, hchain, hleaves, hgen⟩ := ih
      exact ⟨us, hchain, hleaves, .choice hc hgen⟩
  | enabled hf _ ih =>
      obtain ⟨us, hchain, hleaves, hgen⟩ := ih
      exact ⟨us, hchain, hleaves, .enabled hf hgen⟩
  | disabled hf => exact ⟨[], .nil, rfl, .disabled hf⟩

end Generates

section Parsing
variable {s : Session} {trailing : Bool} {rule : RuleId}

/-- Where tokens that are read from the start on end. -/
def Source.endOf (ts : List Token) : Position :=
  (ts.getLast?.map fun t => t.span.stop).getD .start

theorem Source.Chain.endOf_eq {src : Source} {ts : List Token} {q : Position}
    (h : src.Chain .start ts q) : endOf ts = q := h.stop_eq.symm

/-- All of the text reads as `ts`, which the rule generates; and it ends where they do unless
ignored text may follow. -/
structure Session.Sentence (s : Session) (trailing : Bool) (rule : RuleId) (ts : List Token) :
    Prop where
  tokens : (({} : Lexer).tokens s.source).1 = .ok ts
  generates : s.grammar.Generates (.nonterminal rule) ts
  stop : trailing = false → (Source.endOf ts).index = s.source.length

theorem Session.usesUp_iff {ts : List Token} {q : Position}
    (hchain : s.source.Chain .start ts q) : s.usesUp trailing q = true ↔
      (({} : Lexer).tokens s.source).1 = .ok ts ∧
        (trailing = false → (Source.endOf ts).index = s.source.length) := by
  have htokens : (({} : Lexer).tokens s.source).1 = .ok ts ↔ s.source.atEnd q = true := by
    rw [Lexer.tokens_eq_ok_iff ts Lexer.readFrom_empty s.source.isPlace_start]
    constructor
    · intro h
      obtain ⟨q', hchain', hend⟩ := h
      rwa [← hchain.endOf_eq, hchain'.endOf_eq]
    · exact fun hend => ⟨q, hchain, hend⟩
  rw [hchain.endOf_eq, htokens]
  cases trailing with
  | true => simp [usesUp]
  | false =>
      simp only [usesUp, Bool.false_eq_true, if_false, beq_iff_eq, true_implies]
      exact ⟨fun h => ⟨Source.atEnd_of_length_le (Nat.le_of_eq h.symm), h⟩, And.right⟩

/-- A sentence is what leads to an end that uses up the text. -/
theorem Session.sentence_iff : (∃ ts, s.Sentence trailing rule ts) ↔
    ∃ q, s.Ends (.nonterminal rule) .start q ∧ s.usesUp trailing q = true := by
  constructor
  · intro h
    obtain ⟨ts, htokens, hgen, hstop⟩ := h
    obtain ⟨q, hchain, -⟩ :=
      (Lexer.tokens_eq_ok_iff ts Lexer.readFrom_empty s.source.isPlace_start).mp htokens
    exact ⟨q, hgen.ends hchain, (usesUp_iff hchain).mpr ⟨htokens, hstop⟩⟩
  · intro h
    obtain ⟨q, hends, huses⟩ := h
    obtain ⟨ts, hchain, hgen⟩ := hends.generates
    obtain ⟨htokens, hstop⟩ := (usesUp_iff hchain).mp huses
    exact ⟨ts, htokens, hgen, hstop⟩

theorem Session.selects_of_parse {start : Position} {r : Parse}
    (h : s.parse trailing start = .ok r) :
    ∃ rule, s.grammar.selectStart s.source.conditions = .ok rule := by
  cases hselect : s.grammar.selectStart s.source.conditions with
  | ok rule => exact ⟨rule, rfl⟩
  | error e =>
      rw [parse, hselect] at h
      cases h

/-- What a parse that succeeds went through. -/
theorem Session.parse_eq_ok {start : Position} {r : Parse}
    (hselect : s.grammar.selectStart s.source.conditions = .ok rule)
    (h : s.parse trailing start = .ok r) : ∃ root run stop e',
      (s.derive rule start).run.run {} = (.ok root, run) ∧
      s.winner? trailing (run.arena.output root) = some stop ∧
      (s.branch rule start stop).run.run { run := run.setOutput root {stop} } =
        (.ok (some r.tree), e') ∧ r = ⟨r.tree, root, e'.run.arena, e'.run.stats⟩ := by
  unfold parse at h
  rw [hselect] at h
  simp only [bind, Except.bind] at h
  rcases hderive : (s.derive rule start).run.run {} with ⟨f | root, run⟩
  · rw [hderive] at h
    cases h
  · simp only [hderive] at h
    cases hwinner : s.winner? trailing (run.arena.output root) with
    | none =>
        rw [hwinner] at h
        cases h
    | some stop =>
        simp only [hwinner] at h
        rcases hbranch : (s.branch rule start stop).run.run { run := run.setOutput root {stop} }
          with ⟨f | _ | b, e'⟩
        · rw [hbranch] at h
          cases h
        · rw [hbranch] at h
          cases h
        · rw [hbranch] at h
          cases h
          exact ⟨root, run, stop, e', rfl, hwinner, hbranch, rfl⟩

/-- A parse that succeeds is a derivation, narrowed to one path, and the extraction of a branch. -/
theorem Session.reached_of_parse (allowed : Position → Prop) {start : Position} {r : Parse}
    (hstart : allowed start) (h : s.parse trailing start = .ok r) :
    ∃ e, Extraction.Reached s allowed e ∧ r.stats = e.run.stats := by
  obtain ⟨rule, hselect⟩ := selects_of_parse h
  obtain ⟨root, run, stop, e, hderive, hwinner, hbranch, hr⟩ := parse_eq_ok hselect h
  have hnewest := (derive_newest (by simp [Memo.find?])).of_run hderive root rfl
  have hnarrowed := (Extraction.Reached.fresh.derive hstart hderive).narrow hnewest
    (winner?_eq_some.mp hwinner).1.1
  exact ⟨e, hnarrowed.branch hstart hbranch, congrArg Parse.stats hr⟩

/-- A parse gives the tree that is found for its winner. -/
theorem Session.parse_of_branch {start stop : Position} {root : NodeId} {run : Run}
    (hselect : s.grammar.selectStart s.source.conditions = .ok rule)
    (hderive : (s.derive rule start).run.run {} = (.ok root, run))
    (hwinner : s.winner? trailing (run.arena.output root) = some stop)
    (hbranch : ((s.branch rule start stop).run.run
      { run := run.setOutput root {stop} }).1.toOption.map Option.isSome = some true) :
    ∃ r, s.parse trailing start = .ok r := by
  rcases hfound : (s.branch rule start stop).run.run { run := run.setOutput root {stop} }
    with ⟨result, e'⟩
  rw [parse_eq_of_winner hselect hderive hwinner hfound]
  rw [hfound] at hbranch
  obtain f | _ | b := result
  · cases hbranch
  · cases hbranch
  · exact ⟨_, rfl⟩

/-- The tree of a parse has the tokens of a sentence as its leaves. -/
theorem Session.sentence_of_parse {r : Parse}
    (hselect : s.grammar.selectStart s.source.conditions = .ok rule)
    (h : s.parse trailing .start = .ok r) :
    ∃ ts, s.Sentence trailing rule ts ∧ r.tree.tokens = ts.map s.grammar.leaf := by
  obtain ⟨root, run, stop, e', hderive, hwinner, hbranch, -⟩ := parse_eq_ok hselect h
  have hstart := s.source.isPlace_start
  obtain ⟨hv, -, -⟩ := narrowed_valid (c := .places s.source) hstart hderive hwinner
  obtain ⟨he', -, -, -, definition, hdef, hbody⟩ :=
    (branch_gives rule .start stop (Extraction.valid_start hv) (.inl hstart)).of_run hbranch
  have hplaces := (hbody.along s.source.IsPlace hstart he'.run.reads_along fun _ _ _ _ hk => hk).1
  obtain ⟨ts, hchain, hleaves, hgen⟩ := hplaces.generates
  obtain ⟨htokens, hstop⟩ := (usesUp_iff hchain).mp (winner?_eq_some.mp hwinner).1.2
  exact ⟨ts, ⟨htokens, .nonterminal hdef hgen, hstop⟩, hleaves⟩

/-- What each outcome of a parse says about the ends of the start rule, if no rule met itself. -/
theorem Session.parse_outcome (hselect : s.grammar.selectStart s.source.conditions = .ok rule)
    (hhits : ((s.derive rule .start).run.run {}).2.stats.leftRecursionHits = 0) :
    match s.parse trailing .start with
    | .ok _ => ∃ q, s.Ends (.nonterminal rule) .start q ∧ s.usesUp trailing q = true
    | .error (.noPath ..) => ∀ q, ¬s.Ends (.nonterminal rule) .start q
    | .error (.incomplete ..) => (∃ q, s.Ends (.nonterminal rule) .start q) ∧
        ¬∃ q, s.Ends (.nonterminal rule) .start q ∧ s.usesUp trailing q = true
    | .error (.depthLimit ..) => True
    | .error .noStart | .error (.multipleStart ..) => False := by
  have hstart := s.source.isPlace_start
  rcases hderive : (s.derive rule .start).run.run {} with ⟨result, run⟩
  rw [hderive] at hhits
  obtain ⟨-, hsound⟩ := (derive_places rule Run.valid_empty hstart).of_run hderive
  obtain ⟨-, -, -, hcomplete⟩ := (derive_complete rule .start {} Run.valid_empty
    (Run.thoroughUnlessHit_empty s) hstart).of_run hderive
  have hall := hcomplete hhits
  cases result with
  | error f =>
      have hparse : s.parse trailing .start = .error (s.report run rule f) := by
        unfold parse
        rw [hselect]
        simp only [bind, Except.bind, hderive]
        rfl
      rw [hparse]
      cases f with
      | noPath r p => exact hall rfl
      | depthLimit r p => trivial
  | ok root =>
      obtain ⟨hne, hends⟩ := hsound root rfl
      cases hwinner : s.winner? trailing (run.arena.output root) with
      | some stop =>
          obtain ⟨⟨hmem, huses⟩, -⟩ := winner?_eq_some.mp hwinner
          obtain ⟨r, hparse⟩ | ⟨name, p, hparse⟩ := parse_of_winner hselect hderive hwinner
          · rw [hparse]
            exact ⟨stop, (hends stop hmem).2, huses⟩
          · rw [hparse]
            trivial
      | none =>
          have hparse : ∃ name p, s.parse trailing .start = .error (.incomplete name p) := by
            unfold parse
            rw [hselect]
            simp only [bind, Except.bind, hderive, hwinner]
            exact ⟨_, _, rfl⟩
          obtain ⟨name, p, hparse⟩ := hparse
          rw [hparse]
          obtain ⟨q, hq⟩ := SortedSet.ne_empty_iff.mp hne
          refine ⟨⟨q, (hends q hq).2⟩, fun hsome => ?_⟩
          obtain ⟨q', hends', huses⟩ := hsome
          have hmem : q' ∈ (run.arena.output root).filter (s.usesUp trailing) :=
            SortedSet.mem_filter.mpr ⟨hall q' hends', huses⟩
          rw [Std.ExtTreeSet.max?_eq_none_iff.mp hwinner] at hmem
          exact Std.ExtTreeSet.not_mem_empty hmem

/-- Parsing recognises the sentences of the start rule. A tree always stands for one, and as long as
no rule met itself and the bound on nesting was not reached, a parse succeeds for every sentence,
finds no path exactly when the rule generates nothing that the text begins with, and is incomplete
in all other cases. -/
theorem Session.parse_recognizes
    (hselect : s.grammar.selectStart s.source.conditions = .ok rule) :
    (∀ r, s.parse trailing .start = .ok r →
      ∃ ts, s.Sentence trailing rule ts ∧ r.tree.tokens = ts.map s.grammar.leaf) ∧
    (((s.derive rule .start).run.run {}).2.stats.leftRecursionHits = 0 →
      (∀ name p limit, s.parse trailing .start ≠ .error (.depthLimit name p limit)) →
      ((∃ r, s.parse trailing .start = .ok r) ↔ ∃ ts, s.Sentence trailing rule ts) ∧
      ((∃ name p, s.parse trailing .start = .error (.noPath name p)) ↔
        ¬∃ ts q, s.source.Chain .start ts q ∧ s.grammar.Generates (.nonterminal rule) ts) ∧
      ((∃ name p, s.parse trailing .start = .error (.incomplete name p)) ↔
        (∃ ts q, s.source.Chain .start ts q ∧ s.grammar.Generates (.nonterminal rule) ts) ∧
          ¬∃ ts, s.Sentence trailing rule ts)) := by
  refine ⟨fun r hparse => sentence_of_parse hselect hparse, fun hhits hdepth => ?_⟩
  have hbegins : (∃ ts q, s.source.Chain .start ts q ∧
      s.grammar.Generates (.nonterminal rule) ts) ↔ ∃ q, s.Ends (.nonterminal rule) .start q := by
    simp only [ends_iff_generates]
    exact ⟨fun ⟨ts, q, h⟩ => ⟨q, ts, h⟩, fun ⟨q, ts, h⟩ => ⟨ts, q, h⟩⟩
  rw [hbegins, sentence_iff]
  have houtcome := @parse_outcome s trailing rule hselect hhits
  cases hparse : s.parse trailing .start with
  | ok r =>
      rw [hparse] at houtcome
      have hsome : ∃ q, s.Ends (.nonterminal rule) .start q := houtcome.imp fun _ h => h.1
      simp [houtcome, hsome]
  | error f =>
      rw [hparse] at houtcome
      cases f with
      | noPath name p => simp [show ∀ q, ¬s.Ends (.nonterminal rule) .start q from houtcome]
      | incomplete name p =>
          obtain ⟨hsome, hnone⟩ := houtcome
          simp [hsome, hnone]
      | depthLimit name p limit => exact absurd hparse (hdepth name p limit)
      | noStart => exact houtcome.elim
      | multipleStart rules => exact houtcome.elim

/-- A list of two items is parsed, no rule having met itself. -/
theorem Session.parse_recognizes_lists : ∃ r,
    (Samples.listSession "a,a").parse false .start = .ok r ∧
      (∃ ts, (Samples.listSession "a,a").Sentence false 0 ts ∧
        r.tree.tokens = ts.map (Samples.listSession "a,a").grammar.leaf) ∧
      ((∃ r, (Samples.listSession "a,a").parse false .start = .ok r) ↔
        ∃ ts, (Samples.listSession "a,a").Sentence false 0 ts) := by
  obtain ⟨run, hderive, -, hwinner, hhits, hsome⟩ := listSession_derived false
  have hselect : (Samples.listSession "a,a").grammar.selectStart
      (Samples.listSession "a,a").source.conditions = .ok 0 := rfl
  obtain ⟨r, hparse⟩ := parse_of_branch hselect hderive hwinner hsome
  have hrecognizes := @parse_recognizes (Samples.listSession "a,a") false 0 hselect
  refine ⟨r, hparse, hrecognizes.1 r hparse, (hrecognizes.2 ?_ ?_).1⟩
  · rw [hderive]
    exact hhits
  · intro name p limit hlimit
    cases hparse.symm.trans hlimit

end Parsing

end Multipath
