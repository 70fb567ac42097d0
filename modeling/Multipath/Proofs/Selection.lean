import Multipath.Proofs.Recognition

/-!
Selection. Reading token after token from a start gives one chain of positions, and a run that is
started there never leaves it: rules are asked for on the chain only, and all paths lie on it. From
a position where only ignored text is left the chain does not go on, so of the paths behind the
start rule at most one uses up the text, and it is the last. Which of them a parse takes is
therefore no choice at all. The start may be any position, a place of the text or not.
-/

namespace Multipath

namespace Source

variable {src : Source} {start p q : Position}

/-- The position behind the first `n` tokens from `start`, if there are that many. -/
def behind (src : Source) (start : Position) : Nat → Option Position
  | 0 => some start
  | n + 1 => (src.behind start n).bind fun p => (src.token p).toOption.map (·.span.stop)

/-- The start, or the end of one of the tokens that follow it. -/
def OnChain (src : Source) (start q : Position) : Prop := ∃ n, src.behind start n = some q

theorem onChain_start (src : Source) (start : Position) : src.OnChain start start := ⟨0, rfl⟩

theorem behind_succ_iff {n : Nat} : src.behind start (n + 1) = some q ↔
    ∃ p t, src.behind start n = some p ∧ src.token p = .ok t ∧ t.span.stop = q := by
  simp only [behind, Option.bind_eq_some_iff, Option.map_eq_some_iff]
  constructor
  · rintro ⟨p, hp, t, ht, hq⟩
    exact ⟨p, t, hp, ok_of_toOption ht, hq⟩
  · rintro ⟨p, t, hp, ht, hq⟩
    exact ⟨p, hp, t, by rw [ht]; rfl, hq⟩

theorem OnChain.next (h : src.OnChain start p) {t : Token} (ht : src.token p = .ok t) :
    src.OnChain start t.span.stop := by
  obtain ⟨n, hn⟩ := h
  exact ⟨n + 1, behind_succ_iff.mpr ⟨p, t, hn, ht, rfl⟩⟩

/-- The chain of tokens is what lies between the start and a position on the chain. -/
theorem OnChain.chain (h : src.OnChain start q) : ∃ ts, src.Chain start ts q := by
  obtain ⟨n, hn⟩ := h
  induction n generalizing q with
  | zero =>
      cases hn
      exact ⟨[], .nil⟩
  | succ n ih =>
      obtain ⟨p, t, hp, ht, rfl⟩ := behind_succ_iff.mp hn
      obtain ⟨ts, hts⟩ := ih hp
      exact ⟨ts ++ [t], hts.append (.single ht)⟩

/-- Further along the chain is further along the text. -/
theorem behind_upto {n m : Nat} (hn : src.behind start n = some p)
    (hm : src.behind start m = some q) (hle : n ≤ m) : p.Upto q := by
  induction m generalizing q with
  | zero =>
      obtain rfl : n = 0 := by omega
      cases hn.symm.trans hm
      exact .refl p
  | succ m ih =>
      obtain rfl | hlt := Nat.eq_or_lt_of_le hle
      · cases hn.symm.trans hm
        exact .refl p
      · obtain ⟨r, t, hr, ht, rfl⟩ := behind_succ_iff.mp hm
        apply (ih hr (by omega)).trans
        exact .inr (token_stop ht).1

/-- The chain has no gaps. -/
theorem exists_behind_of_le {n m : Nat} (hm : src.behind start m = some q) (hle : n ≤ m) :
    ∃ p, src.behind start n = some p := by
  induction m generalizing q with
  | zero =>
      obtain rfl : n = 0 := by omega
      exact ⟨q, hm⟩
  | succ m ih =>
      obtain rfl | hlt := Nat.eq_or_lt_of_le hle
      · exact ⟨q, hm⟩
      · obtain ⟨r, t, hr, -, -⟩ := behind_succ_iff.mp hm
        exact ih hr (by omega)

/-- Where only ignored text is left, the chain ends. -/
theorem OnChain.upto_of_atEnd (hp : src.OnChain start p) (hq : src.OnChain start q)
    (hend : src.atEnd q = true) : p.Upto q := by
  obtain ⟨n, hn⟩ := hp
  obtain ⟨m, hm⟩ := hq
  have hle : n ≤ m := by
    apply Nat.le_of_not_lt
    intro hlt
    obtain ⟨r, hr⟩ := exists_behind_of_le hn hlt
    obtain ⟨q', t, hq', ht, -⟩ := behind_succ_iff.mp hr
    cases hm.symm.trans hq'
    obtain ⟨e, he, -⟩ := token_of_atEnd hend
    cases ht.symm.trans he
  exact behind_upto hn hm hle

theorem OnChain.eq_of_atEnd (hp : src.OnChain start p) (hq : src.OnChain start q)
    (hpend : src.atEnd p = true) (hqend : src.atEnd q = true) : p = q :=
  (hq.upto_of_atEnd hp hpend).eq_of_le (hp.upto_of_atEnd hq hqend).le

end Source

/-- The chain of tokens from a start. -/
def Scope.chain (src : Source) (start : Position) : Scope src where
  origin := src.OnChain start
  base := src.OnChain start
  origin_of_base _ h := h
  origin_of_token _ _ ht hp := hp.next ht

section Paths
variable {s : Session} {start : Position} {run : Run}

theorem Run.Valid.onChain_of_output (hv : run.Valid s (.chain s.source start)) {id : NodeId}
    {q : Position} (hq : q ∈ run.arena.output id) : s.source.OnChain start q :=
  hv.origin_of_within (hv.within id q hq)

/-- A node starts where its rule was asked for and ends on the chain. -/
theorem Run.Valid.onChain_of_node (hv : run.Valid s (.chain s.source start)) {id : NodeId}
    {node : Node} (hn : run.arena.node? id = some node) :
    s.source.OnChain start node.start ∧ ∀ q ∈ node.output, s.source.OnChain start q := by
  have hd : run.arena.derived? id = some (node.rule, node.start, node.output) := by
    rw [Arena.derived?, hn]
    rfl
  refine ⟨hv.asked _ _ _ (hv.recorded _ _ _ _ hd), fun q hq => ?_⟩
  have hout : q ∈ run.arena.output id := by rwa [Arena.output_of_derived hd]
  exact hv.onChain_of_output hout

theorem Session.follow_onChain (rule : Rule) {input : PathSet}
    (hv : run.Valid s (.chain s.source start)) (hinput : ∀ p ∈ input, s.source.OnChain start p) :
    Ensures (s.follow rule input) run fun result _ =>
      ∀ out, result = .ok out → ∀ q ∈ out, s.source.OnChain start q := by
  have hwithin : ∀ p ∈ input, run.Within (.chain s.source start) p :=
    fun p hp => .inl (hinput p hp)
  refine Ensures.mono (follow_sound rule input run hv hwithin) ?_
  intro result run' hpost out hout q hq
  obtain ⟨hv', hg, hfound⟩ := hpost
  obtain ⟨p, hp, hl⟩ := (hfound out hout).2 q hq
  exact hv'.origin_of_within (hv'.leads_within hl (hg.within (hwithin p hp)))

theorem Session.derive_onChain (rule : RuleId) (start : Position) :
    Ensures (s.derive rule start) {} fun _ run =>
      ∀ id, ∀ q ∈ run.arena.output id, s.source.OnChain start q := by
  have hstart : s.source.OnChain start start := s.source.onChain_start start
  refine Ensures.mono (derive_sound rule start {} (Run.valid_empty (c := .chain s.source start))
    (.inl hstart)) ?_
  intro _ run hpost id q hq
  exact hpost.1.onChain_of_output hq

theorem Session.atEnd_of_usesUp {trailing : Bool} {p : Position}
    (h : s.usesUp trailing p = true) : s.source.atEnd p = true := by
  cases trailing with
  | true => exact h
  | false =>
      have hindex : p.index = s.source.length := by simpa [usesUp] using h
      exact Source.atEnd_of_length_le (Nat.le_of_eq hindex.symm)

/-- Of paths on one chain, the winner is whichever uses up the text. -/
theorem Session.winner?_eq_some_iff_of_onChain {paths : PathSet}
    (hpaths : ∀ p ∈ paths, s.source.OnChain start p) (trailing : Bool) (stop : Position) :
    s.winner? trailing paths = some stop ↔ stop ∈ paths ∧ s.usesUp trailing stop = true := by
  rw [winner?_eq_some]
  refine ⟨And.left, fun h => ⟨h, fun p hp huses => ?_⟩⟩
  obtain rfl : p = stop := (hpaths p hp).eq_of_atEnd (hpaths stop h.1) (atEnd_of_usesUp huses)
    (atEnd_of_usesUp h.2)
  have hself : compare p p = .eq := Std.ReflCmp.compare_self
  rw [hself]
  rfl

/-- A path that uses up the text is the last one. -/
theorem Session.max?_of_atEnd {paths : PathSet}
    (hpaths : ∀ p ∈ paths, s.source.OnChain start p) {stop : Position} (hstop : stop ∈ paths)
    (hend : s.source.atEnd stop = true) : paths.max? = some stop := by
  refine Std.ExtTreeSet.max?_eq_some_iff_mem_and_forall.mpr ⟨hstop, fun p hp => ?_⟩
  have hle : p ≤ stop := ((hpaths p hp).upto_of_atEnd (hpaths stop hstop) hend).le
  rw [← Std.OrientedCmp.isGE_iff_isLE, Ordering.isGE_iff_ne_lt]
  exact fun hlt => hle (Position.compare_eq_lt.mp hlt)

end Paths

section Parsing
variable {s : Session} {start : Position}

/-- What may follow the last token does not matter to a text that ends with it. -/
theorem Session.parse_trailing {r : Parse} (h : s.parse false start = .ok r) :
    s.parse true start = .ok r := by
  unfold parse at h ⊢
  cases hselect : s.grammar.selectStart s.source.conditions with
  | error e =>
      rw [hselect] at h
      cases h
  | ok rule =>
      rw [hselect] at h
      simp only [bind, Except.bind] at h ⊢
      have hchain := (derive_onChain (s := s) rule start)
      unfold Ensures at hchain
      rcases hderive : (s.derive rule start).run.run {} with ⟨f | root, run⟩
      · rw [hderive] at h
        cases h
      · simp only [hderive] at h hchain ⊢
        cases hwinner : s.winner? false (run.arena.output root) with
        | none =>
            rw [hwinner] at h
            cases h
        | some stop =>
            have hstop := (winner?_eq_some_iff_of_onChain (hchain root) false stop).mp hwinner
            have huses : s.usesUp true stop = true := atEnd_of_usesUp hstop.2
            rw [(winner?_eq_some_iff_of_onChain (hchain root) true stop).mpr ⟨hstop.1, huses⟩]
            rwa [hwinner] at h

/-- Selection is never a choice. Whatever is called on a run at positions on the chain of tokens
from a start, it stays on that chain. So of the paths behind a rule at most one has only ignored
text behind it and at most one ends where the text does; the latter is of the former kind, and such
a path is the last one. A parse takes whichever path uses up the text, and one that succeeds with no
text behind the last token gives the same when ignored text may follow. -/
theorem Session.selection_unambiguous (s : Session) (start : Position) :
    (∀ e, Extraction.Reached s (s.source.OnChain start) e →
      (∀ p rule finding, e.run.memo.find? p rule = some finding → s.source.OnChain start p) ∧
      (∀ id node, e.run.arena.node? id = some node →
        s.source.OnChain start node.start ∧ ∀ q ∈ node.output, s.source.OnChain start q) ∧
      ∀ rule input out run', (∀ p ∈ input, s.source.OnChain start p) →
        (s.follow rule input).run.run e.run = (.ok out, run') →
        ∀ q ∈ out, s.source.OnChain start q) ∧
    (∀ rule root run, (s.derive rule start).run.run {} = (.ok root, run) →
      (∀ p ∈ run.arena.output root, ∀ q ∈ run.arena.output root,
        s.source.atEnd p = true → s.source.atEnd q = true → p = q) ∧
      (∀ p ∈ run.arena.output root, ∀ q ∈ run.arena.output root,
        p.index = s.source.length → q.index = s.source.length → p = q) ∧
      (∀ p, p.index = s.source.length → s.source.atEnd p = true) ∧
      (∀ p ∈ run.arena.output root, s.source.atEnd p = true →
        (run.arena.output root).max? = some p) ∧
      ∀ trailing stop, s.winner? trailing (run.arena.output root) = some stop ↔
        stop ∈ run.arena.output root ∧ s.usesUp trailing stop = true) ∧
    ∀ r, s.parse false start = .ok r → s.parse true start = .ok r := by
  refine ⟨fun e he => ?_, fun rule root run hderive => ?_, fun r => parse_trailing⟩
  · have hv := (he.valid (c := .chain s.source start) fun _ hp => hp).run
    refine ⟨hv.asked, fun id node hn => hv.onChain_of_node hn, ?_⟩
    intro rule input out run' hinput hrun
    exact (follow_onChain rule hv hinput).of_run hrun out rfl
  · have hpaths := (derive_onChain rule start).of_run hderive root
    have hend : ∀ p : Position, p.index = s.source.length → s.source.atEnd p = true :=
      fun p hp => Source.atEnd_of_length_le (Nat.le_of_eq hp.symm)
    have hone : ∀ p ∈ run.arena.output root, ∀ q ∈ run.arena.output root,
        s.source.atEnd p = true → s.source.atEnd q = true → p = q :=
      fun p hp q hq => (hpaths p hp).eq_of_atEnd (hpaths q hq)
    refine ⟨hone, fun p hp q hq hpi hqi => hone p hp q hq (hend p hpi) (hend q hqi), hend, ?_, ?_⟩
    · exact fun p hp => max?_of_atEnd hpaths hp
    · exact winner?_eq_some_iff_of_onChain hpaths

/-- The paths of a list of two items, whose last one uses up the text in either way. -/
theorem Session.selection_unambiguous_lists : ∃ run r,
    ((Samples.listSession "a,a").derive 0 .start).run.run {} = (.ok 2, run) ∧
      (∀ p rule finding, run.memo.find? p rule = some finding →
        (Samples.listSession "a,a").source.OnChain .start p) ∧
      (run.arena.output 2).max? = some ⟨3, 1, 4⟩ ∧
      (Samples.listSession "a,a").winner? true (run.arena.output 2) = some ⟨3, 1, 4⟩ ∧
      (Samples.listSession "a,a").parse false .start = .ok r ∧
      (Samples.listSession "a,a").parse true .start = .ok r := by
  obtain ⟨run, hderive, hpath, hwinner, -, hsome⟩ := listSession_derived false
  obtain ⟨r, hparse⟩ := parse_of_branch rfl hderive hwinner hsome
  obtain ⟨hreached, hderived, htrailing⟩ :=
    selection_unambiguous (Samples.listSession "a,a") .start
  obtain ⟨-, -, hend, hlast, hwins⟩ := hderived 0 2 run hderive
  have hindex : (⟨3, 1, 4⟩ : Position).index = (Samples.listSession "a,a").source.length := rfl
  have hstart := (Samples.listSession "a,a").source.onChain_start .start
  exact ⟨run, r, hderive, (hreached _ (.derive .fresh hstart hderive)).1,
    hlast _ hpath (hend _ hindex), (hwins true _).mpr ⟨hpath, hend _ hindex⟩, hparse,
    htrailing r hparse⟩

end Parsing
end Multipath
