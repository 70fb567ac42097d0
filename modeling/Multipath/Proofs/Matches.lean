import Multipath.Proofs.Ends
import Multipath.Tree.Basic

/-!
Matches of rules as lists of trees. `Grammar.Matches` has the cases of `Grammar.Leads` and says in
addition which trees stand between the two positions: a leaf for a token and a branch for an
instance of a rule, which holds a match of its body in turn. Iterations of a repetition consume
something. Whatever is true of how trees lie on the text follows from it by one induction.
-/

namespace Multipath

/-- The leaf of a token. -/
def Grammar.leaf (g : Grammar) (t : Token) : Leaf := ⟨g.lexicon.names t.tags, t.text, t.span⟩

section Matches

/-- `ts` matches a rule between two positions, `reads` giving the token that is read at a position
and `backs` saying which instances of rules there are. -/
inductive Grammar.Matches (g : Grammar) (reads : Position → Token → Prop)
    (backs : RuleId → Position → Position → Prop) :
    Rule → Position → Position → List Tree → Prop
  | terminal {tag p t} : reads p t → t.hasTag tag = true →
      Matches g reads backs (.terminal tag) p t.span.stop [.leaf (g.leaf t)]
  | nonterminal {rule definition p q ts} : g.rule? rule = some definition → backs rule p q →
      Matches g reads backs definition.body p q ts →
      Matches g reads backs (.nonterminal rule) p q [.branch (g.name rule) ⟨p, q⟩ ts]
  | nil {p} : Matches g reads backs (.sequence []) p p []
  | cons {item items p m q ts us} : Matches g reads backs item p m ts →
      Matches g reads backs (.sequence items) m q us →
      Matches g reads backs (.sequence (item :: items)) p q (ts ++ us)
  | skip {body p} : Matches g reads backs (.optional body) p p []
  | take {body p q ts} : Matches g reads backs body p q ts →
      Matches g reads backs (.optional body) p q ts
  | stop {body p} : Matches g reads backs (.repetition body) p p []
  | again {body p m q ts us} : p.index < m.index → Matches g reads backs body p m ts →
      Matches g reads backs (.repetition body) m q us →
      Matches g reads backs (.repetition body) p q (ts ++ us)
  | choice {choice choices p q ts} : choice ∈ choices → Matches g reads backs choice p q ts →
      Matches g reads backs (.alternation choices) p q ts
  | enabled {feature body p q ts} : g.isEnabled feature = true →
      Matches g reads backs body p q ts → Matches g reads backs (.switch feature body) p q ts
  | disabled {feature body p} : g.isEnabled feature = false →
      Matches g reads backs (.switch feature body) p p []

/-- `b` is an instance of a rule between two positions. -/
structure Grammar.Instance (g : Grammar) (reads : Position → Token → Prop)
    (backs : RuleId → Position → Position → Prop) (rule : RuleId) (p q : Position) (b : Branch) :
    Prop where
  name : b.rule = g.name rule
  span : b.span = ⟨p, q⟩
  body : ∃ definition, g.rule? rule = some definition ∧
    g.Matches reads backs definition.body p q b.children

/-- The trees lie side by side between two positions: a leaf is the token that is read where it
begins, and a branch is an instance of one of `rules` that reaches exactly to where the next tree
begins. -/
inductive Grammar.Threads (g : Grammar) (reads : Position → Token → Prop)
    (backs : RuleId → Position → Position → Prop) (rules : RuleId → Prop) :
    Position → Position → List Tree → Prop
  | nil {p} : Threads g reads backs rules p p []
  | leaf {p t q ts} : reads p t → p.index < t.span.stop.index →
      Threads g reads backs rules t.span.stop q ts →
      Threads g reads backs rules p q (.leaf (g.leaf t) :: ts)
  | branch {rule p m q us ts} : rules rule → p.Upto m → backs rule p m →
      g.Instance reads backs rule p m ⟨g.name rule, ⟨p, m⟩, us⟩ →
      Threads g reads backs rules m q ts →
      Threads g reads backs rules p q (.branch (g.name rule) ⟨p, m⟩ us :: ts)

variable {g : Grammar} {reads reads' : Position → Token → Prop}
  {backs backs' : RuleId → Position → Position → Prop} {rule : Rule} {p q : Position}
  {ts : List Tree}

namespace Grammar

theorem Matches.along (h : g.Matches reads backs rule p q ts) (carried : Position → Prop)
    (hp : carried p)
    (hreads : ∀ p t, carried p → reads p t → reads' p t ∧ carried t.span.stop)
    (hbacks : ∀ rule p q, carried p → backs rule p q → backs' rule p q) :
    g.Matches reads' backs' rule p q ts ∧ carried q := by
  induction h with
  | terminal ht htag => exact ⟨.terminal (hreads _ _ hp ht).1 htag, (hreads _ _ hp ht).2⟩
  | nonterminal hdef hback _ ih =>
      exact ⟨.nonterminal hdef (hbacks _ _ _ hp hback) (ih hp).1, (ih hp).2⟩
  | nil => exact ⟨.nil, hp⟩
  | cons _ _ ih ihs =>
      obtain ⟨hitem, hm⟩ := ih hp
      obtain ⟨hitems, hq⟩ := ihs hm
      exact ⟨.cons hitem hitems, hq⟩
  | skip => exact ⟨.skip, hp⟩
  | take _ ih => exact ⟨.take (ih hp).1, (ih hp).2⟩
  | stop => exact ⟨.stop, hp⟩
  | again hlt _ _ ih ihs =>
      obtain ⟨hbody, hm⟩ := ih hp
      obtain ⟨hrest, hq⟩ := ihs hm
      exact ⟨.again hlt hbody hrest, hq⟩
  | choice hc _ ih => exact ⟨.choice hc (ih hp).1, (ih hp).2⟩
  | enabled hf _ ih => exact ⟨.enabled hf (ih hp).1, (ih hp).2⟩
  | disabled hf => exact ⟨.disabled hf, hp⟩

theorem Matches.mono (h : g.Matches reads backs rule p q ts)
    (hreads : ∀ p t, reads p t → reads' p t)
    (hbacks : ∀ rule p q, backs rule p q → backs' rule p q) :
    g.Matches reads' backs' rule p q ts :=
  (h.along (fun _ => True) trivial (fun p t _ ht => ⟨hreads p t ht, trivial⟩)
    fun rule p q _ hr => hbacks rule p q hr).1

theorem Matches.upto (h : g.Matches reads backs rule p q ts)
    (hreads : ∀ p t, reads p t → p.index < t.span.stop.index) : p.Upto q := by
  induction h with
  | terminal ht _ => exact .inr (hreads _ _ ht)
  | nil | skip | stop | disabled _ => exact .refl _
  | cons _ _ ih ihs | again _ _ _ ih ihs => exact ih.trans ihs
  | nonterminal _ _ _ ih | take _ ih | choice _ _ ih | enabled _ _ ih => exact ih

variable {rules rules' : RuleId → Prop} {m : Position} {us : List Tree}

theorem Threads.mono (h : g.Threads reads backs rules p q ts)
    (hrules : ∀ rule, rules rule → rules' rule) : g.Threads reads backs rules' p q ts := by
  induction h with
  | nil => exact .nil
  | leaf ht hlt _ ih => exact .leaf ht hlt ih
  | branch hr hpm hback hb _ ih => exact .branch (hrules _ hr) hpm hback hb ih

theorem Threads.append (h : g.Threads reads backs rules p m ts)
    (h' : g.Threads reads backs rules m q us) : g.Threads reads backs rules p q (ts ++ us) := by
  induction h with
  | nil => exact h'
  | leaf ht hlt _ ih => exact .leaf ht hlt (ih h')
  | branch hr hpm hback hb _ ih => exact .branch hr hpm hback hb (ih h')

/-- A match lies on the text, and its branches are of rules that the fragment refers to. -/
theorem Matches.threads (h : g.Matches reads backs rule p q ts)
    (hreads : ∀ p t, reads p t → p.index < t.span.stop.index) :
    g.Threads reads backs (fun r => .nonterminal r ∈ rule.parts) p q ts := by
  induction h with
  | terminal ht _ => exact .leaf ht (hreads _ _ ht) .nil
  | nonterminal hdef hback hbody _ =>
      exact .branch (by simp [Rule.parts]) (hbody.upto hreads) hback
        ⟨rfl, rfl, _, hdef, hbody⟩ .nil
  | nil | skip | stop | disabled _ => exact .nil
  | cons _ _ ih ihs =>
      refine (ih.mono fun r hr => ?_).append (ihs.mono fun r hr => ?_)
      · simp [Rule.parts, Rule.partsAll, hr]
      · simp only [Rule.parts, List.mem_cons, reduceCtorEq, false_or] at hr
        simp [Rule.parts, Rule.partsAll, hr]
  | take _ ih | enabled _ _ ih => exact ih.mono fun r hr => by simp [Rule.parts, hr]
  | again _ _ _ ih ihs => exact (ih.mono fun r hr => by simp [Rule.parts, hr]).append ihs
  | @choice choice choices _ _ _ hc _ ih =>
      refine ih.mono fun r hr => ?_
      have hall : .nonterminal r ∈ Rule.partsAll choices := by
        induction choices with
        | nil => cases hc
        | cons c cs ihs =>
            obtain rfl | hc := List.mem_cons.mp hc
            · simp [Rule.partsAll, hr]
            · simp [Rule.partsAll, ihs hc]
      simp [Rule.parts, hall]

end Grammar

end Matches
end Multipath
