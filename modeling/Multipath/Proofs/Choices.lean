import Multipath.Proofs.PreferredTrees

/-!
The choices that an extraction makes. Where no rule met itself, the branch of a rule between two
positions is the one preferred derivation that the rule has there, and is missing just where there
is none. Nothing is ever tried in vain on the way: at every moment of an extraction
(`Extraction.During`), of the stops that a part of a rule leads to, the first one tried is taken.
-/

namespace Multipath

open Search (readToken)

/-- A moment of an extraction at places of the text, with those stretches under way. A stretch is
entered for a rule that all those under way come to refer to; extractors are begun and left at
will. -/
inductive Extraction.During (s : Session) : Std.TreeSet Stretch → Extraction → Prop
  | fresh : During s ∅ { run := {} }
  | evaluate {under e rule input result run'} : During s under e →
      (∀ p ∈ input, s.source.IsPlace p) → (s.follow rule input).run.run e.run = (result, run') →
      During s under { e with run := run' }
  | derive {under e rule p result run'} : During s under e → s.source.IsPlace p →
      (s.derive rule p).run.run e.run = (result, run') → During s under { e with run := run' }
  | read {under e p result run'} : During s under e → s.source.IsPlace p →
      (readToken s.source p).run.run e.run = (result, run') → During s under { e with run := run' }
  | enter {under e rule p q} : During s under e → s.source.IsPlace p →
      Footing.Below s under ⟨p, rule⟩ →
      During s (under.insert ⟨rule, p, q⟩) (e.enter ⟨rule, p, q⟩)
  | branch {under e depth rule p q result e'} : During s under e → s.source.IsPlace p →
      Footing.Below s under ⟨p, rule⟩ →
      (s.branchWithin depth rule p q).run.run e = (result, e') → During s under e'
  | renew {e} : During s ∅ e → During s ∅ { run := e.run }

/-- The branch of a rule between two positions as it should be: there just where the rule leads from
the one to the other, and then the only derivation that is preferred. -/
def Session.Chooses (s : Session) (rule : RuleId) (p q : Position) :
    Except Failure (Option Branch) → Prop
  | .ok found => (found.isSome ↔ s.Ends (.nonterminal rule) p q) ∧
      ∀ b, found = some b → ∀ ts, s.Prefers (.nonterminal rule) p q ts ↔ ts = [b.tree]
  | .error f => ∃ r m, f = .depthLimit r m

/-- A part of a rule as it is gone through with `depth` levels of nesting left for branches. -/
def Session.fragmentWithin (s : Session) (depth : Nat) (item : Rule) : Fragment :=
  ⟨s.reach item, s.build (fun r p q => s.branchWithin depth r p q) item⟩

namespace Extraction.During

variable {s : Session} {under : Std.TreeSet Stretch} {e e' : Extraction}

theorem keeps (h : e.During s under) : (Footing.growing s).Keeps under e := by
  induction h with
  | fresh => exact Footing.keeps_start (Run.reliable_fresh s)
  | evaluate _ hinput hrun ih =>
      obtain ⟨hkept, hgrows, -⟩ := (ih.kept.follow hinput).of_run hrun
      exact ih.search hkept hgrows
  | derive _ hp hrun ih =>
      obtain ⟨hkept, hgrows, -⟩ := (ih.kept.derive hp).of_run hrun
      exact ih.search hkept hgrows
  | read _ hp hrun ih =>
      obtain ⟨hkept, hgrows, -⟩ := (ih.kept.readToken hp).of_run hrun
      exact ih.search hkept hgrows
  | enter _ _ _ ih => exact ih.enter _
  | branch _ hp hbelow hrun ih =>
      exact (((Footing.growing s).branchWithin_yields _ _ _ _ _ _ ih hp trivial hbelow).of_run
        hrun).1
  | renew _ ih => exact Footing.keeps_start ih.kept

variable {rule : RuleId} {p q : Position}

/-- The branch of a rule is what is preferred, or missing where the rule does not lead. -/
theorem chooses (h : e.During s ∅) (hp : s.source.IsPlace p)
    {result : Except Failure (Option Branch)}
    (hrun : (s.branch rule p q).run.run e = (result, e'))
    (hhits : e'.run.stats.leftRecursionHits = 0) : s.Chooses rule p q result := by
  have hkeeps := h.keeps
  obtain ⟨-, hsettled⟩ :=
    ((Footing.growing s).branch_yields hkeeps hp trivial q).of_run hrun
  have hsettled := hsettled hhits
  obtain ⟨-, -, hfails⟩ := (branch_gives rule p q hkeeps.valid (.inl hp)).of_run hrun
  match result, hsettled, hfails with
  | .ok (some t), ht, _ =>
      refine ⟨by simpa using ht.ends, fun b heq ts => ?_⟩
      cases heq
      exact ⟨fun hts => hts.unique ht, fun hts => hts ▸ ht⟩
  | .ok none, hnot, _ => exact ⟨by simpa using hnot, nofun⟩
  | .error (.depthLimit r m), _, _ => exact ⟨r, m, rfl⟩

/-- Of the stops that an item leads to, the first one tried is taken. -/
theorem takes_first (h : e.During s under) {item : Rule} (hp : s.source.IsPlace p)
    (hasks : ∀ r m, s.Asks item p (.reference r m) → Footing.Below s under ⟨m, r⟩)
    {stops : List Position} (hstops : ∀ q ∈ stops, s.Ends item p q) {depth : Nat}
    {found : Option (Position × List Tree)}
    (hrun : ((s.fragmentWithin depth item).firstBuilt p stops).run.run e = (.ok found, e'))
    (hhits : e'.run.stats.leftRecursionHits = 0) : found.map Prod.fst = stops.head? := by
  have hserved : ((Footing.growing s).ideal under depth).Served
      fun r p q => s.branchWithin depth r p q :=
    Footing.ideal_served ((Footing.growing s).branchWithin_yields under depth)
      (branchWithin_faithful depth)
  have hadmits : ((Footing.growing s).ideal under depth).Admits item p := by
    refine ⟨hp, fun x hx => ⟨trivial, ?_⟩⟩
    rintro r m rfl
    exact hasks r m hx
  have hleads (q : Position) (hq : q ∈ stops) :
      ((Footing.growing s).ideal under depth).Leads item p q := by
    rw [Footing.ideal_leads]
    exact hstops q hq
  obtain ⟨-, -, -, hfirst⟩ := (Ideal.firstBuilt_yields
    ⟨hserved.reach, fun q hinv hadmits => Ideal.build_makes hserved item _ q _ hinv hadmits⟩
    hadmits stops hleads h.keeps).of_run hrun
  have hfirst := hfirst hhits
  cases found with
  | none => rw [show stops = [] from hfirst]; rfl
  | some built => exact hfirst.1.symm

end Extraction.During

/-- Extraction takes the preferred derivation. Where no rule has met itself, a branch is found for a
rule between two positions, unless it nests too deeply, just where the rule leads from the one to
the other, and it is the only derivation that makes the preferred choices: no stop that is tried and
can be reached ever fails. The tree of a parse is such a branch, too. -/
theorem Session.extraction_prefers (s : Session) :
    (∀ {e e' : Extraction} {rule : RuleId} {p q : Position}
      {result : Except Failure (Option Branch)},
      e.During s ∅ → s.source.IsPlace p → (s.branch rule p q).run.run e = (result, e') →
      e'.run.stats.leftRecursionHits = 0 → s.Chooses rule p q result) ∧
    (∀ {under : Std.TreeSet Stretch} {e e' : Extraction} {item : Rule} {p : Position}
      {stops : List Position} {depth : Nat} {found : Option (Position × List Tree)},
      e.During s under → s.source.IsPlace p →
      (∀ r m, s.Asks item p (.reference r m) → Footing.Below s under ⟨m, r⟩) →
      (∀ q ∈ stops, s.Ends item p q) →
      ((s.fragmentWithin depth item).firstBuilt p stops).run.run e = (.ok found, e') →
      e'.run.stats.leftRecursionHits = 0 → found.map Prod.fst = stops.head?) ∧
    ∀ {trailing : Bool} {start : Position} {rule : RuleId} {r : Parse},
      s.source.IsPlace start → s.grammar.selectStart s.source.conditions = .ok rule →
      ((s.derive rule start).run.run {}).2.stats.leftRecursionHits = 0 →
      s.parse trailing start = .ok r → ∃ root run stop,
        (s.derive rule start).run.run {} = (.ok root, run) ∧
          s.winner? trailing (run.arena.output root) = some stop ∧
          ∀ ts, s.Prefers (.nonterminal rule) start stop ts ↔ ts = [r.tree.tree] := by
  refine ⟨fun h hp hrun hhits => h.chooses hp hrun hhits,
    fun h hp hasks hstops hrun hhits => h.takes_first hp hasks hstops hrun hhits, ?_⟩
  intro trailing start rule r hstart hselect hhits hparse
  obtain ⟨root, run, stop, e', hderive, hwinner, hbranch, -⟩ := parse_eq_ok hselect hparse
  rw [hderive] at hhits
  obtain ⟨ts, hts, hfound⟩ := winner_prefers hstart hderive hhits hwinner
  obtain ⟨t, heq, rfl⟩ := hfound.of_run hbranch
  obtain rfl := Option.some.inj heq
  exact ⟨root, run, stop, hderive, hwinner, fun us => ⟨fun hus => hus.unique hts, fun h => h ▸ hts⟩⟩

/-- A list of two items: its branch, the stop that is tried first for it, and its parse. -/
theorem Session.extraction_prefers_lists :
    (∃ b, (((Samples.listSession "a,a").branch 0 .start ⟨3, 1, 4⟩).run.run
        { run := (((Samples.listSession "a,a").derive 0 .start).run.run {}).2 }).1 = .ok (some b) ∧
      (Samples.listSession "a,a").Chooses 0 .start ⟨3, 1, 4⟩ (.ok (some b))) ∧
    (∃ ts, ((((Samples.listSession "a,a").fragmentWithin 8 (.nonterminal 0)).firstBuilt .start
        [⟨3, 1, 4⟩, ⟨1, 1, 2⟩]).run.run
        { run := (((Samples.listSession "a,a").derive 0 .start).run.run {}).2 }).1 = .ok ts ∧
      ts.map Prod.fst = some ⟨3, 1, 4⟩) ∧
    ∃ r stop, (Samples.listSession "a,a").parse true .start = .ok r ∧
      ∀ ts, (Samples.listSession "a,a").Prefers (.nonterminal 0) .start stop ts ↔
        ts = [r.tree.tree] := by
  have hstart := (Samples.listSession "a,a").source.isPlace_start
  obtain ⟨hbranches, hfirsts, hparses⟩ := extraction_prefers (Samples.listSession "a,a")
  obtain ⟨run, hderive, -, hwinner, hhits, hsome⟩ := listSession_derived true
  have hduring : Extraction.During (Samples.listSession "a,a") ∅ { run } :=
    Extraction.During.fresh.derive hstart hderive
  refine ⟨?_, ?_, ?_⟩
  · have hbranch : (((Samples.listSession "a,a").branch 0 .start ⟨3, 1, 4⟩).run.run
        { run := (((Samples.listSession "a,a").derive 0 .start).run.run {}).2 }).1.toOption.map
          Option.isSome = some true := by decide +kernel
    have hhits : (((Samples.listSession "a,a").branch 0 .start ⟨3, 1, 4⟩).run.run
        { run := (((Samples.listSession "a,a").derive 0 .start).run.run {}).2
          }).2.run.stats.leftRecursionHits = 0 := by decide +kernel
    rw [hderive] at hbranch hhits ⊢
    rcases hrun : ((Samples.listSession "a,a").branch 0 .start ⟨3, 1, 4⟩).run.run { run }
      with ⟨_ | _ | b, e'⟩ <;> rw [hrun] at hbranch hhits
    · cases hbranch
    · cases hbranch
    · exact ⟨b, rfl, hbranches hduring hstart hrun hhits⟩
  · have hpaths : ∀ q ∈ [(⟨3, 1, 4⟩ : Position), ⟨1, 1, 2⟩],
        q ∈ (((Samples.listSession "a,a").derive 0 .start).run.run {}).2.arena.output 2 := by
      decide +kernel
    have hfirst : ((((Samples.listSession "a,a").fragmentWithin 8 (.nonterminal 0)).firstBuilt
        .start [⟨3, 1, 4⟩, ⟨1, 1, 2⟩]).run.run
        { run := (((Samples.listSession "a,a").derive 0 .start).run.run {}).2
          }).1.toOption.isSome = true := by decide +kernel
    have hhits : ((((Samples.listSession "a,a").fragmentWithin 8 (.nonterminal 0)).firstBuilt
        .start [⟨3, 1, 4⟩, ⟨1, 1, 2⟩]).run.run
        { run := (((Samples.listSession "a,a").derive 0 .start).run.run {}).2
          }).2.run.stats.leftRecursionHits = 0 := by decide +kernel
    rw [hderive] at hpaths hfirst hhits ⊢
    have hends (q : Position) (hq : q ∈ [(⟨3, 1, 4⟩ : Position), ⟨1, 1, 2⟩]) :
        (Samples.listSession "a,a").Ends (.nonterminal 0) .start q :=
      (((derive_places 0 Run.valid_empty hstart).of_run hderive).2 2 rfl).2 q (hpaths q hq) |>.2
    rcases hrun : (Fragment.firstBuilt _ .start _).run.run { run } with ⟨_ | ts, e'⟩ <;>
      rw [hrun] at hfirst hhits
    · cases hfirst
    · exact ⟨ts, rfl, hfirsts hduring hstart (by simp [Footing.Below]) hends hrun hhits⟩
  · obtain ⟨r, hparse⟩ := parse_of_branch rfl hderive hwinner hsome
    obtain ⟨_, _, stop, -, -, hprefers⟩ := hparses hstart rfl (hderive ▸ hhits) hparse
    exact ⟨r, stop, hparse, hprefers⟩

end Multipath
