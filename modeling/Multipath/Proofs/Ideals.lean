import Multipath.Proofs.Building
import Multipath.Proofs.Preferences

/-!
What an extraction should come to. An `Ideal` says what tokens and references lead to, by what an
extraction in progress is to be judged, and while it counts (`Ideal.Yields`). Where all searches and
branches serve the ideal, so does what is built from them: between two positions that a rule leads
from and to, its preferred derivation is built, and everywhere else nothing. The furthest candidate
is tried first and always works, so nothing is ever tried in vain (`Ideal.firstBuilt_yields`).
-/

namespace Multipath

open Search (attempt outputOf readToken)
open Extract (ofSearch)

/-- What an extraction should come to. -/
structure Ideal (s : Session) where
  reads : Position → Token → Prop
  refers : RuleId → Position → Position → Prop
  place : Position → Prop
  /-- What may be asked. -/
  asked : Question → Prop
  /-- What every search and every branch keeps. -/
  inv : Extraction → Prop
  /-- What it comes to matters only if this holds in the end. -/
  counts : Extraction → Prop
  /-- Whether searches may be cut off. -/
  cut : Prop
  /-- Trees that need not be built. -/
  excuse : List Tree → Prop
  reads_lt : ∀ {p t}, reads p t → p.index < t.span.stop.index
  refers_upto : ∀ {rule p q}, refers rule p q → p.Upto q
  place_of_reads : ∀ {p t}, reads p t → place p → place t.span.stop
  place_of_refers : ∀ {rule p q}, refers rule p q → place p → place q
  excuse_append : ∀ {ts us}, excuse ts ∨ excuse us → excuse (ts ++ us)

namespace Ideal

variable {s : Session} {i : Ideal s} {e : Extraction} {α β : Type}

/-- Where a rule should lead. -/
abbrev Leads (i : Ideal s) : Rule → Position → Position → Prop :=
  s.grammar.Leads i.reads i.refers

/-- The derivation of a rule that should be built. -/
abbrev Prefers (i : Ideal s) : Rule → Position → Position → List Tree → Prop :=
  s.grammar.Prefers i.reads i.Leads

theorem Leads.upto {rule : Rule} {p q : Position} (h : i.Leads rule p q) : p.Upto q :=
  Grammar.Leads.upto h (fun _ _ ht => .inr (i.reads_lt ht)) fun _ _ _ hr => i.refers_upto hr

/-- The rule may be followed from the position. -/
def Admits (i : Ideal s) (rule : Rule) (p : Position) : Prop :=
  i.place p ∧ ∀ x, s.grammar.Asks i.reads i.refers rule p x → i.asked x

section Admits
variable {rule body item : Rule} {items choices : List Rule} {p q : Position}

theorem Admits.mono {rule' : Rule} (h : i.Admits rule p)
    (hasks : ∀ x, s.grammar.Asks i.reads i.refers rule' p x →
      s.grammar.Asks i.reads i.refers rule p x) : i.Admits rule' p :=
  ⟨h.1, fun x hx => h.2 x (hasks x hx)⟩

theorem place_of_leads (hl : i.Leads rule p q) (hp : i.place p) : i.place q :=
  hl.carries i.place hp (fun _ _ => i.place_of_reads) fun _ _ _ => i.place_of_refers

theorem Admits.rest (h : i.Admits (.sequence (item :: items)) p) (hl : i.Leads item p q) :
    i.Admits (.sequence items) q :=
  ⟨place_of_leads hl h.1, fun x hx => h.2 x (.rest hl hx)⟩

theorem Admits.again (h : i.Admits (.repetition body) p) (hl : i.Leads (.repetition body) p q) :
    i.Admits body q :=
  ⟨place_of_leads hl h.1, fun x hx => h.2 x (.iteration hl hx)⟩

end Admits

/-- The extraction goes on as it should: `sure` is true of what it gives, and `settled` of what it
comes to if that counts. -/
def Yields (i : Ideal s) (x : Extract α) (e : Extraction) (sure : α → Prop)
    (settled : Except Failure α → Prop) : Prop :=
  Ensures x e fun result e' => i.inv e' ∧ (i.counts e' → i.counts e) ∧
    (∀ a, result = .ok a → sure a) ∧ (i.counts e' → settled result)

namespace Yields

theorem pure {a : α} {sure : α → Prop} {settled : Except Failure α → Prop} (hinv : i.inv e)
    (hsure : sure a) (hsettled : settled (.ok a)) : i.Yields (Pure.pure a) e sure settled :=
  ensures_pure.mpr ⟨hinv, id, fun _ hb => Except.ok.inj hb ▸ hsure, fun _ => hsettled⟩

theorem mono {x : Extract α} {sure sure' : α → Prop} {settled settled' : Except Failure α → Prop}
    (h : i.Yields x e sure settled) (hsure : ∀ a, sure a → sure' a)
    (hsettled : ∀ result, settled result → settled' result) : i.Yields x e sure' settled' :=
  Ensures.mono h fun result _ hpost => ⟨hpost.1, hpost.2.1,
    fun a ha => hsure a (hpost.2.2.1 a ha), fun hc => hsettled result (hpost.2.2.2 hc)⟩

theorem bind {x : Extract α} {f : α → Extract β} {sure : α → Prop}
    {settled : Except Failure α → Prop} {sure' : β → Prop} {settled' : Except Failure β → Prop}
    (h : i.Yields x e sure settled) (herror : ∀ f, settled (.error f) → settled' (.error f))
    (hf : ∀ a e', i.inv e' → sure a →
      i.Yields (f a) e' sure' fun result => settled (.ok a) → settled' result) :
    i.Yields (x >>= f) e sure' settled' := by
  refine ensures_bind.mpr (Ensures.mono h fun result e₁ hpost => ?_)
  obtain ⟨hinv, hcounts, hsure, hsettled⟩ := hpost
  cases result with
  | error f => exact ⟨hinv, hcounts, nofun, fun hc => herror f (hsettled hc)⟩
  | ok a =>
      refine Ensures.mono (hf a e₁ hinv (hsure a rfl)) fun result e₂ hpost => ?_
      obtain ⟨hinv', hcounts', hsure', hsettled'⟩ := hpost
      exact ⟨hinv', fun hc => hcounts (hcounts' hc), hsure',
        fun hc => hsettled' hc (hsettled (hcounts' hc))⟩

end Yields

/-- What building a rule between two positions should come to. -/
def Outcome (i : Ideal s) (rule : Rule) (p q : Position) :
    Except Failure (Option (List Tree)) → Prop
  | .ok (some ts) => i.Leads rule p q ∧ i.Prefers rule p q ts
  | .ok none => ¬i.Leads rule p q
  | .error _ => i.cut ∨ i.Leads rule p q ∧ ∀ ts, i.Prefers rule p q ts → i.excuse ts

/-- What was built from one extraction on is as it should be. -/
abbrev Makes (i : Ideal s) (x : Extract (Option (List Tree))) (e : Extraction) (rule : Rule)
    (p q : Position) : Prop :=
  i.Yields x e (fun _ => True) (i.Outcome rule p q)

/-- All positions up to the limit are found that a rule leads to. -/
def Gathers (i : Ideal s) (rule : Rule) (paths : PathSet) (stop : Position) :
    Except Failure PathSet → Prop
  | .ok out => ∀ p ∈ paths, ∀ q, i.Leads rule p q → q ≤ stop → q ∈ out
  | .error _ => i.cut

/-- A fragment does for a rule what it should. -/
structure Serves (i : Ideal s) (f : Fragment) (rule : Rule) : Prop where
  reach : ∀ {e paths} stop, i.inv e → (∀ p ∈ paths, i.Admits rule p) →
    i.Yields (f.reach paths stop) e
      (fun out => ∀ q ∈ out, q ≤ stop ∧ ∃ p ∈ paths, i.Leads rule p q) (i.Gathers rule paths stop)
  build : ∀ {e p} q, i.inv e → i.Admits rule p → i.Makes (f.build p q) e rule p q

variable {f : Fragment} {item body : Rule} {items : List Rule} {p q stop : Position}

/-- What comes of the candidates: the first one works, or was not to be built. -/
def First (i : Ideal s) (rule : Rule) (p : Position) (stops : List Position) :
    Except Failure (Option (Position × List Tree)) → Prop
  | .ok none => stops = []
  | .ok (some (q, ts)) => stops.head? = some q ∧ i.Prefers rule p q ts
  | .error _ => i.cut ∨ ∃ q, stops.head? = some q ∧ ∀ ts, i.Prefers rule p q ts → i.excuse ts

/-- Of candidates that the rule leads to, the first one is taken. -/
theorem firstBuilt_yields (hf : i.Serves f item) (hadmits : i.Admits item p)
    (stops : List Position) (hleads : ∀ q ∈ stops, i.Leads item p q) (hinv : i.inv e) :
    i.Yields (f.firstBuilt p stops) e (fun found => ∀ q ts, found = some (q, ts) → q ∈ stops)
      (i.First item p stops) := by
  induction stops generalizing e with
  | nil => exact .pure hinv nofun rfl
  | cons q stops ih =>
      rw [Fragment.firstBuilt]
      have hl := hleads q List.mem_cons_self
      refine (hf.build q hinv hadmits).bind (fun f herr => ?_) fun found e₁ hinv₁ _ => ?_
      · exact herr.imp_right fun h => ⟨q, rfl, h.2⟩
      · cases found with
        | some nodes =>
            refine .mono (.pure hinv₁ ?_ fun h => ?_) (fun _ => id) fun _ => id
            · intro q' ts heq
              cases heq
              exact List.mem_cons_self
            · exact ⟨rfl, h.2⟩
        | none =>
            -- the rule does lead there, so nothing further is tried
            refine (ih (fun q hq => hleads q (List.mem_cons_of_mem _ hq)) hinv₁).mono
              (fun found hfound q' ts heq => ?_) fun _ _ hnot => absurd hl hnot
            exact List.mem_cons_of_mem _ (hfound q' ts heq)

/-- The first of candidates in decreasing order is the furthest. -/
theorem furthest_of_head {P : Position → Prop} {stops : List Position}
    (hsorted : stops.Pairwise fun a b => b < a) (hmem : ∀ m, m ∈ stops ↔ P m)
    (hhead : stops.head? = some q) : Position.Furthest P q := by
  obtain ⟨rest, rfl⟩ : ∃ rest, stops = q :: rest := by
    cases stops with
    | nil => cases hhead
    | cons a as =>
        cases hhead
        exact ⟨as, rfl⟩
  refine ⟨(hmem q).mp List.mem_cons_self, fun m hm => ?_⟩
  obtain rfl | hrest := List.mem_cons.mp ((hmem m).mpr hm)
  · exact Position.le_refl m
  · exact Position.le_of_lt ((List.pairwise_cons.mp hsorted).1 m hrest)

section Sequences

/-- The fragments in front of which there are paths, all of which may be followed. -/
inductive Layered (i : Ideal s) : List Rule → PathSet → List (Fragment × PathSet) → Prop
  | nil {paths} : Layered i [] paths []
  | cons {f item items paths next before} : i.Serves f item →
      (∀ p ∈ paths, i.Admits (.sequence (item :: items)) p) → Layered i items next before →
      Layered i (item :: items) paths ((f, paths) :: before)

/-- Each layer has all that the items lead to from the one before. -/
inductive Covered (i : Ideal s) (stop : Position) :
    List Rule → PathSet → List (Fragment × PathSet) → Prop
  | nil {paths} : Covered i stop [] paths []
  | cons {f item items paths next before} :
      (∀ p ∈ paths, ∀ q, i.Leads item p q → q ≤ stop → q ∈ next) →
      Covered i stop items next before →
      Covered i stop (item :: items) paths ((f, paths) :: before)

theorem layers_yields (frag : Rule → Fragment) (stop : Position) (items : List Rule)
    (hfrag : ∀ item ∈ items, i.Serves (frag item) item) {paths : PathSet}
    (hadmits : ∀ p ∈ paths, i.Admits (.sequence items) p) (hinv : i.inv e) :
    i.Yields (Fragment.layers stop (items.map frag) paths) e
      (fun found => ∀ before, found = some before → i.Layered items paths before) fun
      | .ok (some before) => i.Covered stop items paths before
      | .ok none => ∀ p ∈ paths, ¬i.Leads (.sequence items) p stop
      | .error _ => i.cut := by
  induction items generalizing paths e with
  | nil =>
      refine .pure hinv (fun before heq => ?_) .nil
      cases heq
      exact .nil
  | cons item items ih =>
      have hf := hfrag item List.mem_cons_self
      rw [List.map_cons, Fragment.layers]
      refine (hf.reach stop hinv fun p hp => (hadmits p hp).mono fun _ => .head).bind
        (fun _ herr => herr) fun next e₁ hinv₁ hnext => ?_
      -- a way over all items goes through the next layer
      have hthrough (hall : i.Gathers item paths stop (.ok next)) (p : Position) (hp : p ∈ paths)
          (hl : i.Leads (.sequence (item :: items)) p stop) :
          ∃ m ∈ next, i.Leads (.sequence items) m stop := by
        cases hl with
        | cons hitem hitems => exact ⟨_, hall p hp _ hitem (Leads.upto hitems).le, hitems⟩
      split
      · next hempty =>
          refine .pure hinv₁ (fun _ heq => by cases heq) fun hall p hp hl => ?_
          obtain ⟨m, hm, -⟩ := hthrough hall p hp hl
          rw [Std.ExtTreeSet.isEmpty_iff.mp hempty] at hm
          exact Std.ExtTreeSet.not_mem_empty hm
      · have hadmits₁ : ∀ m ∈ next, i.Admits (.sequence items) m := by
          intro m hm
          obtain ⟨-, p, hp, hl⟩ := hnext m hm
          exact (hadmits p hp).rest hl
        refine (ih (fun item hitem => hfrag item (List.mem_cons_of_mem _ hitem)) hadmits₁
          hinv₁).bind (fun _ herr _ => herr) fun found e₂ hinv₂ hlayered => ?_
        cases found with
        | some before =>
            refine .pure hinv₂ (fun before' heq => ?_) fun hcovered hall => ?_
            · cases heq
              exact .cons hf hadmits (hlayered before rfl)
            · exact .cons hall hcovered
        | none =>
            refine .pure hinv₂ (fun _ heq => by cases heq) fun hnone hall p hp hl => ?_
            obtain ⟨m, hm, hl⟩ := hthrough hall p hp hl
            exact hnone m hm hl

/-- Whether one of the positions reached is behind says whether the item leads to one there. -/
theorem any_mem_iff {stops after : PathSet}
    (hstops : ∀ q ∈ stops, q ≤ stop ∧ ∃ p' ∈ ({p} : PathSet), i.Leads item p' q)
    (hall : i.Gathers item {p} stop (.ok stops)) :
    stops.toList.any (· ∈ after) = true ↔ ∃ q ∈ after, i.Leads item p q ∧ q ≤ stop := by
  simp only [List.any_eq_true, Std.ExtTreeSet.mem_toList, decide_eq_true_eq]
  constructor
  · rintro ⟨q, hq, hafter⟩
    obtain ⟨hle, p', hp', hl⟩ := hstops q hq
    rw [SortedSet.mem_singleton.mp hp'] at hl
    exact ⟨q, hafter, hl, hle⟩
  · rintro ⟨q, hafter, hl, hle⟩
    exact ⟨q, hall p (SortedSet.mem_singleton.mpr rfl) q hl hle, hafter⟩

/-- Some paths are gone through, each of which is kept if the fragment leads to one behind. -/
theorem keepEach_yields (hf : i.Serves f item) (after : PathSet) (ps : List Position)
    (hadmits : ∀ p ∈ ps, i.Admits item p) (keep : PathSet) (hinv : i.inv e) :
    i.Yields (ps.foldlM (fun keep p => do
      let stops ← f.reach {p} stop
      pure (if stops.toList.any (· ∈ after) then keep.insert p else keep)) keep) e
      (fun _ => True) fun
      | .ok out => ∀ p, p ∈ out ↔ p ∈ keep ∨ p ∈ ps ∧ ∃ q ∈ after, i.Leads item p q ∧ q ≤ stop
      | .error _ => i.cut := by
  induction ps generalizing keep e with
  | nil => exact .pure hinv trivial (by simp)
  | cons p ps ih =>
      rw [List.foldlM_cons, bind_assoc]
      have hp := hadmits p List.mem_cons_self
      refine (hf.reach stop hinv fun p' hp' => SortedSet.mem_singleton.mp hp' ▸ hp).bind
        (fun _ herr => herr) fun stops e₁ hinv₁ hstops => ?_
      refine .mono (ih (fun p hp => hadmits p (List.mem_cons_of_mem _ hp)) _ hinv₁) (fun _ => id)
        fun result hrest hall => ?_
      have hany : stops.toList.any (· ∈ after) = true ↔ _ := any_mem_iff hstops hall
      cases result with
      | error f => exact hrest
      | ok out =>
          intro p'
          rw [hrest p']
          split
          · next h =>
              have hway := hany.mp h
              simp only [SortedSet.mem_insert, List.mem_cons]
              constructor
              · rintro ((rfl | hp') | ⟨hp', hway'⟩)
                · exact .inr ⟨.inl rfl, hway⟩
                · exact .inl hp'
                · exact .inr ⟨.inr hp', hway'⟩
              · rintro (hp' | ⟨rfl | hp', hway'⟩)
                · exact .inl (.inr hp')
                · exact .inl (.inl rfl)
                · exact .inr ⟨hp', hway'⟩
          · next h =>
              simp only [List.mem_cons]
              constructor
              · exact fun h => h.imp_right fun h => ⟨.inr h.1, h.2⟩
              · rintro (hp' | ⟨rfl | hp', hway'⟩)
                · exact .inl hp'
                · exact absurd (hany.mpr hway') h
                · exact .inr ⟨hp', hway'⟩

/-- Exactly those paths of a layer are kept from which the fragment leads to one behind. -/
theorem keepViable_yields (hf : i.Serves f item) (after layer : PathSet)
    (hadmits : ∀ p ∈ layer, i.Admits item p) (hinv : i.inv e) :
    i.Yields (f.keepViable stop after layer) e (fun _ => True) fun
      | .ok keep => ∀ p, p ∈ keep ↔ p ∈ layer ∧ ∃ q ∈ after, i.Leads item p q ∧ q ≤ stop
      | .error _ => i.cut := by
  refine (keepEach_yields hf after layer.toList
    (fun p hp => hadmits p (Std.ExtTreeSet.mem_toList.mp hp)) ∅ hinv).mono (fun _ => id)
    fun result h => ?_
  cases result with
  | error f => exact h
  | ok keep =>
      intro p
      rw [h p]
      simp

/-- Each fragment, with the paths behind it, is of its item. -/
inductive Aligned (i : Ideal s) : List Rule → List (Fragment × PathSet) → Prop
  | nil : Aligned i [] []
  | cons {f item items after steps} : i.Serves f item → Aligned i items steps →
      Aligned i (item :: items) ((f, after) :: steps)

/-- Behind each fragment exactly those paths are kept from which the rest leads to the stop. -/
inductive Fenced (i : Ideal s) (stop : Position) :
    List Rule → PathSet → List (Fragment × PathSet) → Prop
  | nil {paths} : Fenced i stop [] paths []
  | cons {f item items paths next after steps} :
      (∀ p ∈ paths, ∀ q, i.Leads item p q → q ≤ stop →
        q ∈ next ∧ (q ∈ after ↔ i.Leads (.sequence items) q stop)) →
      Fenced i stop items next steps →
      Fenced i stop (item :: items) paths ((f, after) :: steps)

theorem prune_yields {paths : PathSet} {before : List (Fragment × PathSet)}
    (hlayered : i.Layered items paths before) (hinv : i.inv e) :
    i.Yields (Fragment.prune stop before) e (fun pruned => i.Aligned items pruned.2) fun
      | .ok (viable, steps) => ∀ paths, i.Covered stop items paths before →
          i.Fenced stop items paths steps ∧
            ∀ p ∈ paths, p ∈ viable ↔ i.Leads (.sequence items) p stop
      | .error _ => i.cut := by
  induction hlayered generalizing e with
  | nil =>
      refine .pure hinv .nil fun paths _ => ⟨.nil, fun p _ => ?_⟩
      rw [SortedSet.mem_singleton]
      constructor
      · rintro rfl
        exact .nil
      · intro hl
        cases hl with
        | nil => rfl
  | @cons f item items paths _ before hf hadmits _ ih =>
      rw [Fragment.prune]
      refine (ih hinv).bind (fun _ herr => herr) fun pruned e₁ hinv₁ haligned => ?_
      obtain ⟨after, steps⟩ := pruned
      refine (keepViable_yields hf after paths (fun p hp => (hadmits p hp).mono fun _ => .head)
        hinv₁).bind (fun _ herr _ => herr) fun viable e₂ hinv₂ _ => ?_
      refine .pure hinv₂ (.cons hf haligned) fun hviable hrest _ hcovered => ?_
      cases hcovered with
      | @cons _ _ _ _ next _ hnext hcovered =>
          obtain ⟨hfenced, hafter⟩ := hrest next hcovered
          refine ⟨.cons (fun p hp q hl hle => ?_) hfenced, fun p hp => ?_⟩
          · have hmem := hnext p hp q hl hle
            exact ⟨hmem, hafter q hmem⟩
          · rw [hviable p]
            constructor
            · rintro ⟨-, q, hq, hl, hle⟩
              exact .cons hl ((hafter q (hnext p hp q hl hle)).mp hq)
            · intro hl
              cases hl with
              | @cons _ _ _ m _ hitem hitems =>
                  have hle : m ≤ stop := (Leads.upto hitems).le
                  exact ⟨hp, m, (hafter m (hnext p hp m hitem hle)).mpr hitems, hitem, hle⟩

section Furthest
variable (hfar : Position.Furthest
  (fun m => i.Leads item p m ∧ i.Leads (.sequence items) m stop) q)
include hfar

/-- Where an item or the rest behind it need not be built, the whole need not be. -/
theorem excuse_cons {ts : List Tree}
    (hexcuse : (∀ us, i.Prefers item p q us → i.excuse us) ∨
      ∀ us, i.Prefers (.sequence items) q stop us → i.excuse us)
    (hts : i.Prefers (.sequence (item :: items)) p stop ts) : i.excuse ts := by
  cases hts with
  | cons hfar' hitem hitems =>
      obtain rfl := hfar.unique hfar'
      exact i.excuse_append (hexcuse.imp (· _ hitem) (· _ hitems))

/-- Behind an item that is taken to its furthest position, the rest decides about the whole. -/
theorem Outcome.cons {nodes : List Tree} {found : Except Failure (Option (List Tree))}
    (hitem : i.Prefers item p q nodes) (hitems : i.Outcome (.sequence items) q stop found) :
    i.Outcome (.sequence (item :: items)) p stop (found.map (Option.map (nodes ++ ·))) :=
  match found, hitems with
  | .ok (some _), hitems => ⟨.cons hfar.1.1 hfar.1.2, .cons hfar hitem hitems.2⟩
  | .ok none, hnot => absurd hfar.1.2 hnot
  | .error _, herr => herr.imp_right fun h =>
      ⟨.cons hfar.1.1 hfar.1.2, fun _ => excuse_cons hfar (.inr h.2)⟩

end Furthest

section Candidates
variable {f : Fragment} {paths stops after : PathSet} {steps : List (Fragment × PathSet)}
  (h : i.Fenced stop (item :: items) paths ((f, after) :: steps)) (hp : p ∈ paths)
  (hstops : ∀ q ∈ stops, q ≤ stop ∧ i.Leads item p q)
  (hall : i.Gathers item {p} stop (.ok stops))
include h hp hstops hall

/-- The candidates for an item are all the positions that it may be taken to. -/
theorem Fenced.mem_candidates_iff (q : Position) : q ∈ stops.toList.reverse.filter (· ∈ after) ↔
    i.Leads item p q ∧ i.Leads (.sequence items) q stop := by
  cases h with
  | cons hnext _ =>
      simp only [List.mem_filter, List.mem_reverse, Std.ExtTreeSet.mem_toList, decide_eq_true_eq]
      constructor
      · rintro ⟨hq, hafter⟩
        obtain ⟨hle, hl⟩ := hstops q hq
        exact ⟨hl, (hnext p hp q hl hle).2.mp hafter⟩
      · rintro ⟨hitem, hitems⟩
        have hle : q ≤ stop := (Leads.upto hitems).le
        exact ⟨hall p (SortedSet.mem_singleton.mpr rfl) q hitem hle,
          (hnext p hp q hitem hle).2.mpr hitems⟩

theorem Fenced.furthest (hq : (stops.toList.reverse.filter (· ∈ after)).head? = some q) :
    Position.Furthest (fun m => i.Leads item p m ∧ i.Leads (.sequence items) m stop) q :=
  furthest_of_head (PathSet.descending stops _) (h.mem_candidates_iff hp hstops hall) hq

/-- Behind the first candidate for an item the rest is fenced, too, and decides about the whole. -/
theorem Fenced.outcome {nodes : List Tree} {found : Except Failure (Option (List Tree))}
    (hfirst : i.First item p (stops.toList.reverse.filter (· ∈ after)) (.ok (some (q, nodes))))
    (hrest : ∀ paths, i.Fenced stop items paths steps → q ∈ paths →
      i.Leads (.sequence items) q stop → i.Outcome (.sequence items) q stop found) :
    i.Outcome (.sequence (item :: items)) p stop (found.map (Option.map (nodes ++ ·))) := by
  have hfar := h.furthest hp hstops hall hfirst.1
  cases h with
  | cons hnext hfenced =>
      have hle : q ≤ stop := (Leads.upto hfar.1.2).le
      exact .cons hfar hfirst.2 (hrest _ hfenced (hnext p hp q hfar.1.1 hle).1 hfar.1.2)

end Candidates

/-- Every fragment is taken to its furthest viable stop. -/
theorem choose_yields {steps : List (Fragment × PathSet)} (haligned : i.Aligned items steps)
    (hadmits : i.Admits (.sequence items) p) (hinv : i.inv e) :
    i.Yields (Fragment.choose stop steps p) e (fun _ => True) fun result =>
      ∀ paths, i.Fenced stop items paths steps → p ∈ paths → i.Leads (.sequence items) p stop →
        i.Outcome (.sequence items) p stop result := by
  induction haligned generalizing p e with
  | nil =>
      refine .pure hinv trivial fun _ _ _ hl => ?_
      cases hl with
      | nil => exact ⟨.nil, .nil⟩
  | @cons f item items after steps hf _ ih =>
      rw [Fragment.choose]
      have hhead : i.Admits item p := hadmits.mono fun _ => .head
      refine (hf.reach stop hinv fun p' hp' => SortedSet.mem_singleton.mp hp' ▸ hhead).bind
        (fun _ herr _ _ _ _ => .inl herr) fun stops e₁ hinv₁ hstops => ?_
      have hleads (q : Position) (hq : q ∈ stops) : q ≤ stop ∧ i.Leads item p q := by
        obtain ⟨hle, p', hp', hl⟩ := hstops q hq
        exact ⟨hle, SortedSet.mem_singleton.mp hp' ▸ hl⟩
      have hcandidate (q : Position) (hq : q ∈ stops.toList.reverse.filter (· ∈ after)) :
          i.Leads item p q := by
        simp only [List.mem_filter, List.mem_reverse, Std.ExtTreeSet.mem_toList] at hq
        exact (hleads q hq.1).2
      refine (firstBuilt_yields hf hhead _ hcandidate hinv₁).bind
        (fun _ herr hall paths hfenced hp hl => ?_) fun found e₂ hinv₂ hfound => ?_
      · refine herr.imp_right fun hfirst => ⟨hl, fun ts hts => ?_⟩
        obtain ⟨q, hq, hexcuse⟩ := hfirst
        exact excuse_cons (hfenced.furthest hp hleads hall hq) (.inl hexcuse) hts
      · cases found with
        | none =>
            refine .pure hinv₂ trivial fun hnone hall paths hfenced hp hl => ?_
            cases hl with
            | cons hitem hitems =>
                have hmem := (hfenced.mem_candidates_iff hp hleads hall _).mpr ⟨hitem, hitems⟩
                rw [show _ = [] from hnone] at hmem
                cases hmem
        | some built =>
            obtain ⟨q, nodes⟩ := built
            have hl := hcandidate q (hfound q nodes rfl)
            refine (ih (hadmits.rest hl) hinv₂).bind
              (fun _ herr hfirst hall paths hfenced hp _ => ?_) fun found e₃ hinv₃ _ => ?_
            · exact hfenced.outcome hp hleads hall hfirst herr
            · exact .pure hinv₃ trivial fun hrest hfirst hall paths hfenced hp _ =>
                hfenced.outcome hp hleads hall hfirst hrest

/-- Sequences of fragments come to what they should. -/
theorem inSequence_makes (frag : Rule → Fragment) (items : List Rule)
    (hfrag : ∀ item ∈ items, i.Serves (frag item) item) {start : Position}
    (hadmits : i.Admits (.sequence items) start) (hinv : i.inv e) :
    i.Makes (Fragment.inSequence (items.map frag) start stop) e (.sequence items) start stop := by
  have hstart : start ∈ ({start} : PathSet) := SortedSet.mem_singleton.mpr rfl
  rw [Fragment.inSequence]
  refine (layers_yields frag stop items hfrag
    (fun p hp => SortedSet.mem_singleton.mp hp ▸ hadmits) hinv).bind (fun _ herr => .inl herr)
    fun found e₁ hinv₁ hlayered => ?_
  cases found with
  | none => exact .pure hinv₁ trivial fun hnone => hnone start hstart
  | some before =>
      refine (prune_yields (hlayered before rfl) hinv₁).bind (fun _ herr _ => .inl herr)
        fun pruned e₂ hinv₂ haligned => ?_
      obtain ⟨viable, steps⟩ := pruned
      dsimp only
      split
      · next hmem =>
          refine (choose_yields haligned hadmits hinv₂).mono (fun _ => id)
            fun result hresult hpruned hcovered => ?_
          obtain ⟨hfenced, hviable⟩ := hpruned _ hcovered
          exact hresult _ hfenced hstart ((hviable start hstart).mp hmem)
      · next hmem =>
          refine .pure hinv₂ trivial fun hpruned hcovered hl => ?_
          exact hmem (((hpruned _ hcovered).2 start hstart).mpr hl)

end Sequences
section Repetitions

open Fragment (viable)
open Fragment.Steps

/-- The steps listed are taken by the body, from positions that repeating it leads to. -/
structure Explored (i : Ideal s) (body : Rule) (start : Position) (steps : Fragment.Steps) :
    Prop where
  led : ∀ p ∈ steps, i.Leads (.repetition body) start p
  sorted : ∀ (p : Position) next, steps[p]? = some next → next.Pairwise (· < ·)
  leads : ∀ (p : Position) next, steps[p]? = some next → ∀ q ∈ next, p < q ∧ i.Leads body p q

/-- All steps up to the stop are listed that the body takes from a position listed. -/
def Complete (i : Ideal s) (body : Rule) (stop : Position) (steps : Fragment.Steps) : Prop :=
  ∀ (p : Position) next, steps[p]? = some next →
    ∀ q, i.Leads body p q → p < q → q ≤ stop → q ∈ next

variable {start : Position} {steps : Fragment.Steps} {next : List Position}

theorem explored_empty : i.Explored body start ∅ where
  led p hp := by simp at hp
  sorted p next h := by simp at h
  leads p next h := by simp at h

theorem complete_empty : i.Complete body stop ∅ := by
  intro p next h
  simp at h

theorem Explored.insert (h : i.Explored body start steps) (hp : i.Leads (.repetition body) start p)
    (hsorted : next.Pairwise (· < ·)) (hleads : ∀ q ∈ next, p < q ∧ i.Leads body p q) :
    i.Explored body start (steps.insert p next) where
  led q hq := by
    obtain rfl | hq := mem_insert.mp hq
    · exact hp
    · exact h.led q hq
  sorted q next' hn := by
    rw [getElem?_insert] at hn
    split at hn
    · cases hn
      exact hsorted
    · exact h.sorted q next' hn
  leads q next' hn := by
    rw [getElem?_insert] at hn
    split at hn
    · next heq =>
        cases hn
        rw [heq]
        exact hleads
    · exact h.leads q next' hn

theorem Complete.insert (h : i.Complete body stop steps)
    (hall : ∀ q, i.Leads body p q → p < q → q ≤ stop → q ∈ next) :
    i.Complete body stop (steps.insert p next) := by
  intro q next' hn
  rw [getElem?_insert] at hn
  split at hn
  · next heq =>
      cases hn
      rw [heq]
      exact hall
  · exact h q next' hn

theorem explore_yields (hf : i.Serves f body) (hadmits : i.Admits (.repetition body) start)
    (n : Nat) (pending : List Position) (steps : Fragment.Steps)
    (hpending : ∀ p ∈ pending, i.Leads (.repetition body) start p)
    (hsteps : i.Explored body start steps) (hinv : i.inv e) :
    i.Yields (f.explore stop n pending steps) e (i.Explored body start) fun
      | .ok steps' => i.Complete body stop steps → i.Complete body stop steps'
      | .error _ => i.cut := by
  induction n generalizing pending steps e with
  | zero => exact .pure hinv hsteps id
  | succ n ih =>
      rw [Fragment.explore]
      obtain ⟨hnil, -⟩ | ⟨front, p, rest, rfl, hdrop, -, -⟩ :=
        dropWhile_cases steps.contains pending
      · rw [hnil]
        exact .pure hinv hsteps id
      · rw [hdrop]
        have hp : i.Leads (.repetition body) start p := hpending p (by simp)
        have hbody := hadmits.again hp
        refine (hf.reach stop hinv fun p' hp' => SortedSet.mem_singleton.mp hp' ▸ hbody).bind
          (fun _ herr => herr) fun stops e₁ hinv₁ hstops => ?_
        have hleads : ∀ q ∈ stops.toList.filter (p < ·), p < q ∧ i.Leads body p q := by
          intro q hq
          obtain ⟨hq, hlt⟩ := List.mem_filter.mp hq
          obtain ⟨-, p', hp', hl⟩ := hstops q (Std.ExtTreeSet.mem_toList.mp hq)
          rw [SortedSet.mem_singleton.mp hp'] at hl
          exact ⟨by simpa using hlt, hl⟩
        have hsorted : (stops.toList.filter (p < ·)).Pairwise (· < ·) :=
          List.Pairwise.filter _
            (Std.ExtTreeSet.ordered_toList.imp fun h => Position.compare_eq_lt.mp h)
        refine (ih _ _ (fun q hq => ?_) (hsteps.insert hp hsorted hleads) hinv₁).mono
          (fun _ => id) fun result hresult hall => ?_
        · obtain hq | hq := List.mem_append.mp hq
          · exact hp.repetition_trans (.again (hleads q (List.mem_reverse.mp hq)).2 .stop)
          · exact hpending q (by simp [hq])
        · cases result with
          | error f => exact hresult
          | ok steps' =>
              refine fun hcomplete => hresult (hcomplete.insert fun q hl hlt hle => ?_)
              have hmem := hall p (SortedSet.mem_singleton.mpr rfl) q hl hle
              exact List.mem_filter.mpr ⟨Std.ExtTreeSet.mem_toList.mpr hmem, by simpa using hlt⟩

theorem Leads.lt_of_ne {rule : Rule} (h : i.Leads rule p q) (hne : p ≠ q) : p < q :=
  .inl (h.upto.lt_of_ne hne)

theorem Explored.forward (h : i.Explored body start steps) (p : Position) (next : List Position)
    (hnext : steps[p]? = some next) : ∀ q ∈ next, p < q :=
  fun q hq => (h.leads p next hnext q hq).1

theorem Explored.leads_getD (h : i.Explored body start steps) {q : Position}
    (hq : q ∈ steps.getD p []) : p < q ∧ i.Leads body p q := by
  rw [Std.TreeMap.getD_eq_getD_getElem?] at hq
  cases hnext : steps[p]? with
  | none => simp [hnext] at hq
  | some next => exact h.leads p next hnext q (by simpa [hnext] using hq)

/-- Of the positions listed, those are viable from which repeating leads to the stop. -/
theorem Explored.mem_viable_iff (h : i.Explored body start steps)
    (hcomplete : i.Complete body stop steps) (hclosed : steps.Closed) (hp : p ∈ steps) :
    p ∈ viable stop steps ↔ i.Leads (.repetition body) p stop := by
  constructor
  · intro hv
    rw [Fragment.viable_eq] at hv
    refine Fragment.leads_of_mem_viableIn (fun entry hmem q hq => ?_) hv
    exact (h.leads entry.1 entry.2
      (Std.TreeMap.mem_toList_iff_getElem?_eq_some.mp hmem) q hq).2
  · intro hl
    generalize hrule : Rule.repetition body = rule at hl
    induction hl with
    | stop =>
        exact (Fragment.mem_viable_iff h.forward (Fragment.Steps.getElem?_of_mem hp)).mpr (.inl rfl)
    | @again _ p m q hbody hrest _ ih =>
        cases hrule
        by_cases heq : p = m
        · rw [heq] at hp ⊢
          exact ih hcomplete hp rfl
        · have hnext := Fragment.Steps.getElem?_of_mem hp
          have hm := hcomplete p _ hnext m hbody (Leads.lt_of_ne hbody heq) (Leads.upto hrest).le
          have hviable := ih hcomplete (hclosed p _ hnext m hm) rfl
          exact (Fragment.mem_viable_iff h.forward hnext).mpr (.inr ⟨m, hm, hviable⟩)
    | _ => cases hrule

/-- The candidates for an iteration are all the positions that it may be taken to. -/
theorem Explored.mem_candidates_iff (h : i.Explored body start steps)
    (hcomplete : i.Complete body stop steps) (hclosed : steps.Closed) (hp : p ∈ steps)
    (q : Position) : q ∈ (steps.getD p []).reverse.filter (viable stop steps).contains ↔
      p < q ∧ i.Leads body p q ∧ i.Leads (.repetition body) q stop := by
  have hnext := Fragment.Steps.getElem?_of_mem hp
  simp only [List.mem_filter, List.mem_reverse, Std.TreeSet.contains_iff_mem]
  constructor
  · rintro ⟨hq, hv⟩
    obtain ⟨hlt, hl⟩ := h.leads p _ hnext q hq
    exact ⟨hlt, hl, (h.mem_viable_iff hcomplete hclosed (hclosed p _ hnext q hq)).mp hv⟩
  · rintro ⟨hlt, hl, hrest⟩
    have hq := hcomplete p _ hnext q hl hlt (Leads.upto hrest).le
    exact ⟨hq, (h.mem_viable_iff hcomplete hclosed (hclosed p _ hnext q hq)).mpr hrest⟩

section Furthest
variable (hne : p ≠ stop) (hfar : Position.Furthest
  (fun m => p < m ∧ i.Leads body p m ∧ i.Leads (.repetition body) m stop) q)
include hne hfar

/-- Where an iteration or those behind it need not be built, the whole need not be. -/
theorem excuse_again {ts : List Tree}
    (hexcuse : (∀ us, i.Prefers body p q us → i.excuse us) ∨
      ∀ us, i.Prefers (.repetition body) q stop us → i.excuse us)
    (hts : i.Prefers (.repetition body) p stop ts) : i.excuse ts := by
  cases hts with
  | stop => exact absurd rfl hne
  | again _ hfar' hbody hrest =>
      obtain rfl := hfar.unique hfar'
      exact i.excuse_append (hexcuse.imp (· _ hbody) (· _ hrest))

/-- Behind an iteration that is taken to its furthest position, the others decide about the
whole. -/
theorem Outcome.again {nodes : List Tree} {found : Except Failure (Option (List Tree))}
    (hbody : i.Prefers body p q nodes) (hrest : i.Outcome (.repetition body) q stop found) :
    i.Outcome (.repetition body) p stop (found.map (Option.map (nodes ++ ·))) :=
  match found, hrest with
  | .ok (some _), hrest => ⟨.again hfar.1.2.1 hfar.1.2.2, .again hne hfar hbody hrest.2⟩
  | .ok none, hnot => absurd hfar.1.2.2 hnot
  | .error _, herr => herr.imp_right fun h =>
      ⟨.again hfar.1.2.1 hfar.1.2.2, fun _ => excuse_again hne hfar (.inr h.2)⟩

end Furthest

theorem Explored.descending (h : i.Explored body start steps) (p : Position) :
    ((steps.getD p []).reverse.filter (viable stop steps).contains).Pairwise
      fun a b => b < a := by
  refine List.Pairwise.filter _ (List.pairwise_reverse.mpr ?_)
  rw [Std.TreeMap.getD_eq_getD_getElem?]
  cases hnext : steps[p]? with
  | none => exact .nil
  | some next => exact h.sorted p next hnext

/-- Every iteration is taken to its furthest viable stop. -/
theorem iterate_yields (hf : i.Serves f body) (hadmits : i.Admits (.repetition body) start)
    (hsteps : i.Explored body start steps) (n : Nat)
    (hp : i.Leads (.repetition body) start p) (hn : (steps.behind p).length ≤ n)
    (hinv : i.inv e) :
    i.Yields (f.iterate stop steps (viable stop steps) n p) e (fun _ => True) fun result =>
      i.Complete body stop steps → steps.Closed → p ∈ steps →
        i.Leads (.repetition body) p stop → i.Outcome (.repetition body) p stop result := by
  induction n generalizing p e with
  | zero =>
      rw [Fragment.iterate]
      split
      · next heq =>
          rw [heq]
          exact .pure hinv trivial fun _ _ _ _ => ⟨.stop, .stop⟩
      · next hne =>
          refine .pure hinv trivial fun hcomplete hclosed hmem hl => ?_
          obtain ⟨m, hpm, hbody, hrest⟩ := hl.iteration hne
          have hlt := Leads.lt_of_ne hbody hpm
          have hnext := Fragment.Steps.getElem?_of_mem hmem
          have hm := hclosed p _ hnext m (hcomplete p _ hnext m hbody hlt (Leads.upto hrest).le)
          have := Fragment.Steps.length_behind_lt hlt hm
          omega
  | succ n ih =>
      rw [Fragment.iterate]
      split
      · next heq =>
          rw [heq]
          exact .pure hinv trivial fun _ _ _ _ => ⟨.stop, .stop⟩
      · next hne =>
          have hcandidate (q : Position)
              (hq : q ∈ (steps.getD p []).reverse.filter (viable stop steps).contains) :
              (p < q ∧ i.Leads body p q) ∧ q ∈ steps := by
            simp only [List.mem_filter, List.mem_reverse, Std.TreeSet.contains_iff_mem] at hq
            exact ⟨hsteps.leads_getD hq.1, Fragment.mem_steps_of_viable hq.2⟩
          have hfurthest (hcomplete : i.Complete body stop steps) (hclosed : steps.Closed)
              (hmem : p ∈ steps) {q : Position}
              (hq : ((steps.getD p []).reverse.filter (viable stop steps).contains).head? =
                some q) := furthest_of_head (hsteps.descending p)
            (hsteps.mem_candidates_iff hcomplete hclosed hmem) hq
          refine (firstBuilt_yields hf (hadmits.again hp) _ (fun q hq => (hcandidate q hq).1.2)
            hinv).bind (fun _ herr hcomplete hclosed hmem hl => ?_) fun found e₁ hinv₁ hfound => ?_
          · refine herr.imp_right fun hfirst => ⟨hl, fun ts hts => ?_⟩
            obtain ⟨q, hq, hexcuse⟩ := hfirst
            exact excuse_again hne (hfurthest hcomplete hclosed hmem hq) (.inl hexcuse) hts
          · cases found with
            | none =>
                refine .pure hinv₁ trivial fun hnone hcomplete hclosed hmem hl => ?_
                obtain ⟨m, hpm, hbody, hrest⟩ := hl.iteration hne
                have hm := (hsteps.mem_candidates_iff hcomplete hclosed hmem m).mpr
                  ⟨Leads.lt_of_ne hbody hpm, hbody, hrest⟩
                rw [show _ = [] from hnone] at hm
                cases hm
            | some built =>
                obtain ⟨q, nodes⟩ := built
                obtain ⟨⟨hlt, hl⟩, hq⟩ := hcandidate q (hfound q nodes rfl)
                have hbehind := Fragment.Steps.length_behind_lt hlt hq
                refine (ih (hp.repetition_trans (.again hl .stop)) (by omega) hinv₁).bind
                  (fun _ herr hfirst hcomplete hclosed hmem _ => ?_) fun found e₂ hinv₂ _ => ?_
                · have hfar := hfurthest hcomplete hclosed hmem hfirst.1
                  exact Outcome.again hne hfar hfirst.2 (herr hcomplete hclosed hq hfar.1.2.2)
                · refine .pure hinv₂ trivial fun hrest hfirst hcomplete hclosed hmem _ => ?_
                  have hfar := hfurthest hcomplete hclosed hmem hfirst.1
                  exact Outcome.again hne hfar hfirst.2 (hrest hcomplete hclosed hq hfar.1.2.2)

/-- Repetitions of a fragment come to what they should, if exploring comes to its end. -/
theorem inRepetition_makes (hf : i.Serves f body) {bound : Nat}
    (hadmits : i.Admits (.repetition body) start)
    (hcloses : Ensures (f.explore stop bound [start] ∅) e fun result e' => i.counts e' →
      ∀ steps, result = .ok steps → start ∈ steps ∧ steps.Closed) (hinv : i.inv e) :
    i.Makes (f.inRepetition bound start stop) e (.repetition body) start stop := by
  rw [Fragment.inRepetition]
  split
  · next heq =>
      rw [heq]
      exact .pure hinv trivial ⟨.stop, .stop⟩
  · next hne =>
      have hexplore : i.Yields (f.explore stop bound [start] ∅) e (i.Explored body start) fun
          | .ok steps => i.Complete body stop steps ∧ start ∈ steps ∧ steps.Closed
          | .error _ => i.cut := by
        refine Ensures.mono ((explore_yields hf hadmits bound [start] ∅ (fun p hp => ?_)
          explored_empty hinv).and hcloses) fun result e' hpost => ?_
        · rw [List.mem_singleton.mp hp]
          exact .stop
        · obtain ⟨⟨hinv', hcounts, hsure, hsettled⟩, hcloses⟩ := hpost
          refine ⟨hinv', hcounts, hsure, fun hc => ?_⟩
          have hsettled := hsettled hc
          cases result with
          | error f => exact hsettled
          | ok steps => exact ⟨hsettled complete_empty, hcloses hc steps rfl⟩
      refine hexplore.bind (fun _ herr => .inl herr) fun steps e₁ hinv₁ hsteps => ?_
      dsimp only
      split
      · next hviable =>
          have hbound : (steps.behind start).length ≤ steps.size := by
            rw [← Std.TreeMap.length_keys]
            exact List.length_filter_le _ _
          refine (iterate_yields hf hadmits hsteps steps.size .stop hbound hinv₁).mono
            (fun _ => id) fun result hresult h => ?_
          obtain ⟨hcomplete, hmem, hclosed⟩ := h
          exact hresult hcomplete hclosed hmem
            ((hsteps.mem_viable_iff hcomplete hclosed hmem).mp hviable)
      · next hviable =>
          refine .pure hinv₁ trivial fun h hl => ?_
          obtain ⟨hcomplete, hmem, hclosed⟩ := h
          exact hviable ((hsteps.mem_viable_iff hcomplete hclosed hmem).mpr hl)

end Repetitions

section Building
variable {branch : Session.BranchBuilder}

/-- Searches do what they should, and so do branches. -/
structure Served (i : Ideal s) (branch : Session.BranchBuilder) : Prop where
  reach : ∀ {item e paths} stop, i.inv e → (∀ p ∈ paths, i.Admits item p) →
    i.Yields (s.reach item paths stop) e
      (fun out => ∀ q ∈ out, q ≤ stop ∧ ∃ p ∈ paths, i.Leads item p q) (i.Gathers item paths stop)
  terminal : ∀ {tag e p} q, i.inv e → i.Admits (.terminal tag) p →
    i.Makes (s.buildTerminal tag p q) e (.terminal tag) p q
  nonterminal : ∀ {rule e p} q, i.inv e → i.Admits (.nonterminal rule) p →
    i.Makes (s.buildNonterminal branch rule p q) e (.nonterminal rule) p q
  explores : ∀ {body e start} stop, i.inv e → i.place start →
    Ensures (Fragment.explore ⟨s.reach body, s.build branch body⟩ stop (s.pathBound e.run)
      [start] ∅) e fun result e' => i.counts e' →
        ∀ steps, result = .ok steps → start ∈ steps ∧ steps.Closed

/-- Nothing leads against the direction of the text. -/
theorem forward_makes {rule : Rule} {x : Extract (Option (List Tree))} (hinv : i.inv e)
    (hx : i.Makes x e rule p q) : i.Makes (Session.forward p q x) e rule p q := by
  unfold Session.forward
  split
  · next hlt => exact .pure hinv trivial fun hl => hl.upto.le hlt
  · exact hx

/-- Between two positions that are the same there is nothing. -/
theorem nothing_yields {rule : Rule} {hyp : Prop} (hinv : i.inv e)
    (hsame : hyp → p = q → i.Leads rule p q ∧ i.Prefers rule p q [])
    (hne : hyp → p ≠ q → ¬i.Leads rule p q) :
    i.Yields (pure (Session.nothing p q)) e (fun _ => True)
      fun result => hyp → i.Outcome rule p q result := by
  refine .pure hinv trivial fun h => ?_
  unfold Session.nothing
  split
  · next heq => exact hsame h heq
  · next hdiffer => exact hne h hdiffer

mutual

/-- Every rule is built as it should be. -/
theorem build_makes (hs : i.Served branch) : ∀ (rule : Rule) (p q : Position) (e : Extraction),
    i.inv e → i.Admits rule p → i.Makes (s.build branch rule p q) e rule p q
  | .terminal tag, p, q, e, hinv, hadmits => by
      rw [Session.build]
      exact forward_makes hinv (hs.terminal q hinv hadmits)
  | .nonterminal rule, p, q, e, hinv, hadmits => by
      rw [Session.build]
      exact forward_makes hinv (hs.nonterminal q hinv hadmits)
  | .sequence items, p, q, e, hinv, hadmits => by
      rw [Session.build, fragments_eq]
      exact forward_makes hinv
        (inSequence_makes _ items (fragments_serve hs items) hadmits hinv)
  | .optional body, p, q, e, hinv, hadmits => by
      rw [Session.build]
      refine forward_makes hinv ((build_makes hs body p q e hinv
        (hadmits.mono fun _ => .optional)).bind (fun _ herr => ?_) fun found e₁ hinv₁ _ => ?_)
      · refine herr.imp_right fun h => ⟨.take h.1, fun ts hts => ?_⟩
        cases hts with
        | skip hnot => exact absurd h.1 hnot
        | take _ hbody => exact h.2 ts hbody
      · cases found with
        | some nodes => exact .pure hinv₁ trivial fun h => ⟨.take h.1, .take h.1 h.2⟩
        | none =>
            refine nothing_yields hinv₁ (fun hnot heq => ?_) fun hnot hne hl => ?_
            · rw [← heq] at hnot ⊢
              exact ⟨.skip, .skip hnot⟩
            · cases hl with
              | skip => exact hne rfl
              | take hbody => exact hnot hbody
  | .repetition body, p, q, e, hinv, hadmits => by
      rw [Session.build]
      refine forward_makes hinv (ensures_bind.mpr (ensures_get.mpr ?_))
      exact inRepetition_makes
        ⟨hs.reach, fun q hinv hadmits => build_makes hs body _ q _ hinv hadmits⟩
        hadmits (hs.explores q hinv hadmits.1) hinv
  | .alternation choices, p, q, e, hinv, hadmits => by
      rw [Session.build]
      exact forward_makes hinv (buildFirst_makes hs choices p q e hinv hadmits)
  | .switch feature body, p, q, e, hinv, hadmits => by
      rw [Session.build]
      refine forward_makes hinv ?_
      split
      · next hon =>
          refine (build_makes hs body p q e hinv (hadmits.mono fun _ => .enabled hon)).mono
            (fun _ => id) fun result h => ?_
          match result, h with
          | .ok (some ts), h => exact ⟨.enabled hon h.1, .enabled hon h.2⟩
          | .ok none, hnot =>
              intro hl
              cases hl with
              | enabled _ hbody => exact hnot hbody
              | disabled hoff => cases hon.symm.trans hoff
          | .error f, herr =>
              refine herr.imp_right fun h => ⟨.enabled hon h.1, fun ts hts => ?_⟩
              cases hts with
              | enabled _ hbody => exact h.2 ts hbody
              | disabled hoff => cases hon.symm.trans hoff
      · next hoff =>
          have hoff : s.grammar.isEnabled feature = false := by simpa using hoff
          have hsame : True → p = q → i.Leads (.switch feature body) p q ∧
              i.Prefers (.switch feature body) p q [] := by
            rintro - rfl
            exact ⟨.disabled hoff, .disabled hoff⟩
          refine (nothing_yields hinv hsame fun _ hne hl => ?_).mono (fun _ => id)
            fun _ h => h trivial
          cases hl with
          | enabled hon _ => cases hon.symm.trans hoff
          | disabled _ => exact hne rfl

theorem buildFirst_makes (hs : i.Served branch) : ∀ (choices : List Rule) (p q : Position)
    (e : Extraction), i.inv e → i.Admits (.alternation choices) p →
      i.Makes (s.buildFirst branch choices p q) e (.alternation choices) p q
  | [], p, q, e, hinv, _ => by
      rw [Session.buildFirst]
      refine .pure hinv trivial fun hl => ?_
      cases hl with
      | choice hmem _ => cases hmem
  | choice :: choices, p, q, e, hinv, hadmits => by
      rw [Session.buildFirst]
      have hhead : i.Admits choice p := hadmits.mono fun _ => .choice List.mem_cons_self
      have hrest : i.Admits (.alternation choices) p := hadmits.mono fun _ hx => by
        cases hx with
        | choice hmem hx => exact .choice (List.mem_cons_of_mem _ hmem) hx
      refine (build_makes hs choice p q e hinv hhead).bind (fun _ herr => ?_)
        fun found e₁ hinv₁ _ => ?_
      · refine herr.imp_right fun h => ⟨.choice List.mem_cons_self h.1, fun ts hts => ?_⟩
        cases hts with
        | first _ hchoice => exact h.2 ts hchoice
        | later hnot _ => exact absurd h.1 hnot
      · cases found with
        | some nodes =>
            exact .pure hinv₁ trivial fun h => ⟨.choice List.mem_cons_self h.1, .first h.1 h.2⟩
        | none =>
            refine (buildFirst_makes hs choices p q e₁ hinv₁ hrest).mono (fun _ => id)
              fun result h hnot => ?_
            have hlater (hl : i.Leads (.alternation choices) p q) :
                i.Leads (.alternation (choice :: choices)) p q := by
              cases hl with
              | choice hmem hl => exact .choice (List.mem_cons_of_mem _ hmem) hl
            match result, h with
            | .ok (some ts), h => exact ⟨hlater h.1, .later hnot h.2⟩
            | .ok none, hnone =>
                intro hl
                cases hl with
                | choice hmem hl =>
                    obtain rfl | hmem := List.mem_cons.mp hmem
                    · exact hnot hl
                    · exact hnone (.choice hmem hl)
            | .error f, herr =>
                refine herr.imp_right fun h => ⟨hlater h.1, fun ts hts => ?_⟩
                cases hts with
                | first hl _ => exact absurd hl hnot
                | later _ hchoices => exact h.2 ts hchoices

theorem fragments_serve (hs : i.Served branch) : ∀ (items : List Rule), ∀ item ∈ items,
    i.Serves ⟨s.reach item, s.build branch item⟩ item
  | [], _, hitem => absurd hitem List.not_mem_nil
  | item :: items, x, hx => by
      by_cases h : x = item
      · rw [h]
        exact ⟨hs.reach, fun q hinv hadmits => build_makes hs item _ q _ hinv hadmits⟩
      · exact fragments_serve hs items x ((List.mem_cons.mp hx).resolve_left h)

end

end Building

end Ideal
end Multipath
