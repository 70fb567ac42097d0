import Multipath.Proofs.Building
import Multipath.Proofs.Calls
import Multipath.Proofs.Preferences

/-!
How an extraction advances. The branches that it puts away are gone through in the order of the
text: at a position, all that span some text lie behind (`Extraction.Advanced`), since a part that
was matched over some text is never given up. So no branch that spans text is ever taken a second
time, and those count as deep as they were entered. A branch over no text may have been put away
further up, but nests no deeper than there are rules.
-/

namespace Multipath

open Search (attempt)
open Extract (ofSearch)

namespace Tree

mutual

/-- How deep those branches of a tree nest that span some text. -/
def spanning : Tree → Nat
  | .leaf _ => 0
  | .branch _ span children =>
    if span.start = span.stop then spanningAll children else spanningAll children + 1

def spanningAll : List Tree → Nat
  | [] => 0
  | t :: ts => max (spanning t) (spanningAll ts)

end

theorem spanningAll_append (ts us : List Tree) :
    spanningAll (ts ++ us) = max (spanningAll ts) (spanningAll us) := by
  induction ts with
  | nil => simp [spanningAll]
  | cons t ts ih => simp [spanningAll, ih, Nat.max_assoc]

end Tree

namespace Extraction

variable {s : Session} {c : Scope s.source} {e e' e'' : Extraction} {p q m : Position}
  {ts us : List Tree} {d : Nat}

/-- The stretches under way lie around the two positions. -/
def Inside (e : Extraction) (p q : Position) : Prop :=
  ∀ stretch ∈ e.active, stretch.start.index ≤ p.index ∧ q.index ≤ stretch.stop.index

theorem Inside.inner (h : e.Inside p q) {p' q' : Position} (hp : p.index ≤ p'.index)
    (hq : q'.index ≤ q.index) : e.Inside p' q' :=
  fun stretch hmem => ⟨Nat.le_trans (h stretch hmem).1 hp, Nat.le_trans hq (h stretch hmem).2⟩

/-- Behind some text nothing stands in the way. -/
theorem Inside.clear (h : e.Inside p q) (hlt : p.index < m.index) (n : Nat) : e.Clear n m q := by
  intro stretch hmem
  obtain ⟨hstart, hstop⟩ := h stretch hmem
  exact ⟨by omega, hstop, fun hm _ => by omega⟩

theorem Grows.inside (h : e.Grows e') (hin : e.Inside p q) : e'.Inside p q :=
  fun stretch hmem => hin stretch ((h.active stretch).mp hmem)

/-- Whatever was put away is there later on. -/
def Stores (e e' : Extraction) : Prop := ∀ stretch ∈ e.built, stretch ∈ e'.built

theorem Stores.refl (e : Extraction) : e.Stores e := fun _ hmem => hmem

theorem Stores.trans (h : e.Stores e') (h' : e'.Stores e'') : e.Stores e'' :=
  fun stretch hmem => h' stretch (h stretch hmem)

/-- Trees over no text at `p` that nest no deeper than there are rules put away there. -/
def Hollow (e : Extraction) (p : Position) (ts : List Tree) : Prop :=
  Tree.spanningAll ts = 0 ∧ ∃ rules : List RuleId, rules.Nodup ∧
    (∀ r ∈ rules, (⟨r, p, p⟩ : Stretch) ∈ e.built) ∧ Tree.nestingAll ts ≤ rules.length

theorem Hollow.mono (h : e.Hollow p ts) (hstores : e.Stores e') : e'.Hollow p ts := by
  obtain ⟨hspanning, rules, hnodup, hbuilt, hnesting⟩ := h
  exact ⟨hspanning, rules, hnodup, fun r hr => hstores _ (hbuilt r hr), hnesting⟩

theorem Hollow.append (h : e.Hollow p ts) (h' : e.Hollow p us) : e.Hollow p (ts ++ us) := by
  obtain ⟨hspanning, rules, hnodup, hbuilt, hnesting⟩ := h
  obtain ⟨hspanning', rules', hnodup', hbuilt', hnesting'⟩ := h'
  refine ⟨by rw [Tree.spanningAll_append, hspanning, hspanning', Nat.max_self], ?_⟩
  rw [Tree.nestingAll_append]
  -- the deeper of the two is what counts
  rcases Nat.le_total rules.length rules'.length with hle | hle
  · exact ⟨rules', hnodup', hbuilt', by omega⟩
  · exact ⟨rules, hnodup, hbuilt, by omega⟩

/-- There are no more rules to put away than the grammar has. -/
theorem Hollow.nesting_le (h : e.Hollow p ts) (he : e.Valid s c) :
    Tree.nestingAll ts ≤ s.grammar.rules.length := by
  obtain ⟨-, rules, hnodup, hbuilt, hnesting⟩ := h
  have hsub : rules ⊆ List.range s.grammar.rules.length := by
    intro r hr
    obtain ⟨-, -, definition, hdef, -⟩ := he.built _ _ (Std.TreeMap.getElem?_eq_some_getElem
      (hbuilt r hr))
    exact List.mem_range.mpr (List.getElem?_eq_some_iff.mp hdef).1
  have hlength := hnodup.length_le_of_subset hsub
  rw [List.length_range] at hlength
  exact Nat.le_trans hnesting hlength

/-- What spans no text is hollow, and in all else at most `d` branches nest that span some, besides
hollow ones. -/
def Shallow (s : Session) (e : Extraction) (d : Nat) (p q : Position) (ts : List Tree) : Prop :=
  p = q ∧ e.Hollow p ts ∨ p ≠ q ∧ Tree.spanningAll ts ≤ d ∧
    Tree.nestingAll ts ≤ d + s.grammar.rules.length

namespace Shallow

theorem nil (s : Session) (e : Extraction) (d : Nat) (p : Position) : e.Shallow s d p p [] :=
  .inl ⟨rfl, rfl, [], .nil, nofun, Nat.le_refl 0⟩

theorem mono (h : e.Shallow s d p q ts) (hstores : e.Stores e') : e'.Shallow s d p q ts :=
  h.imp_left fun hsame => ⟨hsame.1, hsame.2.mono hstores⟩

theorem bounds (h : e.Shallow s d p q ts) (he : e.Valid s c) :
    Tree.spanningAll ts ≤ d ∧ Tree.nestingAll ts ≤ d + s.grammar.rules.length := by
  obtain ⟨-, hhollow⟩ | ⟨-, hbounds⟩ := h
  · exact ⟨hhollow.1 ▸ Nat.zero_le d, Nat.le_trans (hhollow.nesting_le he) (Nat.le_add_left _ _)⟩
  · exact hbounds

theorem append (h : e.Shallow s d p m ts) (h' : e.Shallow s d m q us) (he : e.Valid s c)
    (hpm : p.Upto m) (hmq : m.Upto q) : e.Shallow s d p q (ts ++ us) := by
  by_cases heq : p = q
  · obtain rfl : m = p := hpm.eq_of_le (heq ▸ hmq.le)
    have hhollow {ts : List Tree} (h : e.Shallow s d m m ts) : e.Hollow m ts :=
      (h.resolve_right fun hne => hne.1 rfl).2
    subst heq
    exact .inl ⟨rfl, (hhollow h).append (hhollow h')⟩
  · refine .inr ⟨heq, ?_⟩
    rw [Tree.spanningAll_append, Tree.nestingAll_append]
    exact ⟨Nat.max_le.mpr ⟨(h.bounds he).1, (h'.bounds he).1⟩,
      Nat.max_le.mpr ⟨(h.bounds he).2, (h'.bounds he).2⟩⟩

end Shallow

/-- The extraction has advanced to `p`: what it has put away lies behind if it spans some text, is
hollow if it spans none, and was left. -/
structure Advanced (e : Extraction) (p : Position) : Prop where
  behind : ∀ (stretch : Stretch) t, e.built[stretch]? = some t → stretch.start ≠ stretch.stop →
    stretch.stop.index ≤ p.index
  hollow : ∀ (stretch : Stretch) t, e.built[stretch]? = some t → stretch.start = stretch.stop →
    e.Hollow stretch.start [t.tree]
  apart : ∀ stretch ∈ e.active, stretch ∉ e.built

theorem advanced_start (run : Run) (p : Position) : Advanced { run } p :=
  ⟨fun _ _ h => by simp at h, fun _ _ h => by simp at h, fun _ h => by simp at h⟩

theorem Advanced.upto (h : e.Advanced p) (hpq : p.Upto q) : e.Advanced q :=
  ⟨fun stretch t ht hne => Nat.le_trans (h.behind stretch t ht hne) hpq.index_le, h.hollow,
    h.apart⟩

/-- Searches put nothing away. -/
def Searches (e e' : Extraction) : Prop := e'.built = e.built

theorem searches_steady : Steady Searches where
  refl _ := rfl
  trans h h' := h'.trans h

theorem Searches.stores (h : e.Searches e') : e.Stores e' := fun stretch hmem => by rwa [h]

theorem Searches.advanced (h : e.Searches e') (hg : e.Grows e') (hadv : e.Advanced p) :
    e'.Advanced p where
  behind := by rw [h]; exact hadv.behind
  hollow stretch t ht hsame := by
    rw [h] at ht
    exact (hadv.hollow stretch t ht hsame).mono h.stores
  apart stretch hmem := by
    rw [h]
    exact hadv.apart stretch ((hg.active stretch).mp hmem)

/-- What is matched advances the extraction over it, and what fails puts nothing away that spans
text. -/
def Advances (s : Session) (d : Nat) (e : Extraction) (p q : Position)
    (found : Option (List Tree)) (e' : Extraction) : Prop :=
  e.Stores e' ∧ match found with
    | some ts => e'.Advanced q ∧ e'.Shallow s d p q ts
    | none => e'.Advanced p

theorem Advances.of_stores {found : Option (List Tree)} (h : e'.Advances s d p q found e'')
    (hstores : e.Stores e') : e.Advances s d p q found e'' :=
  ⟨hstores.trans h.1, h.2⟩

/-- What was matched is followed by the rest, of which some is missing only where no text was
matched before. -/
theorem Advances.append {found : Option (List Tree)} (hts : e'.Shallow s d p m ts)
    (h : e'.Advances s d m q found e'') (he : e''.Valid s c) (hpm : p.Upto m) (hmq : m.Upto q)
    (hnone : found = none → p = m) : e'.Advances s d p q (found.map (ts ++ ·)) e'' := by
  refine ⟨h.1, ?_⟩
  cases found with
  | some us => exact ⟨h.2.1, (hts.mono h.1).append h.2.2 he hpm hmq⟩
  | none =>
      obtain rfl := hnone rfl
      exact h.2

end Extraction

theorem Extract.keeps_searches {α : Type} (x : Search α) : Keeps Extraction.Searches (ofSearch x) :=
  fun _ => ensures_ofSearch.mpr rfl

theorem Session.reach_searches (s : Session) (rule : Rule) (paths : PathSet) (stop : Position) :
    Keeps Extraction.Searches (s.reach rule paths stop) := by
  refine (Extract.keeps_searches _).bind Extraction.searches_steady fun found => ?_
  cases found <;> exact .pure Extraction.searches_steady _

section Gives
variable {α : Type} {s : Session} {c : Scope s.source} {x : Extract α} {e : Extraction}
  {post post' : α → Extraction → Prop}

theorem Extract.Gives.also (h : Extract.Gives s c x e post)
    (h' : Ensures x e fun result e' => ∀ a, result = .ok a → post' a e') :
    Extract.Gives s c x e fun a e' => post a e' ∧ post' a e' := by
  refine Ensures.mono (Ensures.and h h') fun result e' hpost => ?_
  obtain ⟨⟨he, hg, hpost⟩, hpost'⟩ := hpost
  cases result with
  | error f => exact ⟨he, hg, hpost⟩
  | ok a => exact ⟨he, hg, hpost, hpost' a rfl⟩

theorem Extract.Gives.and (h : Extract.Gives s c x e post) (h' : Extract.Gives s c x e post') :
    Extract.Gives s c x e fun a e' => post a e' ∧ post' a e' := by
  refine h.also (Ensures.mono h' fun result e' hpost a heq => ?_)
  subst heq
  exact hpost.2.2

theorem Extract.Gives.keeping {rel : Extraction → Extraction → Prop}
    (h : Extract.Gives s c x e post) (hx : Keeps rel x) :
    Extract.Gives s c x e fun a e' => post a e' ∧ rel e e' :=
  h.also ((hx e).mono fun _ _ hrel _ _ => hrel)

end Gives

namespace Fragment

open Extraction (Searches searches_steady)

variable {s : Session} {c : Scope s.source} {e : Extraction} {f : Fragment} {item body : Rule}
  {d : Nat} {p q stop : Position}

/-- A fragment of a rule that advances an extraction, with at most `d` branches nesting in it that
span text. -/
structure Paced (s : Session) (c : Scope s.source) (d : Nat) (rule : Rule) (f : Fragment) :
    Prop where
  faithful : f.Faithful s c rule
  reach : ∀ paths stop, Keeps Searches (f.reach paths stop)
  build : ∀ {e : Extraction} {p q : Position}, e.Valid s c → e.run.Within c p → e.Advanced p →
    e.Inside p q → p.Upto q → Extract.Gives s c (f.build p q) e (e.Advances s d p q)

/-- The extraction advances to the candidate that is found. -/
theorem Paced.firstBuilt_advances (hf : f.Paced s c d item) (stops : List Position)
    (hstops : ∀ q ∈ stops, p.Upto q ∧ e.Inside p q) (he : e.Valid s c) (hp : e.run.Within c p)
    (hadv : e.Advanced p) :
    Extract.Gives s c (f.firstBuilt p stops) e fun found e' => e.Stores e' ∧ match found with
      | some (q, ts) => e'.Advanced q ∧ e'.Shallow s d p q ts
      | none => e'.Advanced p := by
  induction stops generalizing e with
  | nil => exact .pure he ⟨.refl e, hadv⟩
  | cons q stops ih =>
      obtain ⟨hupto, hinside⟩ := hstops q List.mem_cons_self
      rw [firstBuilt]
      refine (hf.build he hp hadv hinside hupto).bind fun found e₁ he₁ hg₁ hfound => ?_
      cases found with
      | some nodes => exact .pure he₁ hfound
      | none =>
          refine (ih (fun q hq => ?_) he₁ (hg₁.run.within hp) hfound.2).mono
            fun found e₂ _ _ hrest => ?_
          · obtain ⟨hupto, hinside⟩ := hstops q (List.mem_cons_of_mem _ hq)
            exact ⟨hupto, hg₁.inside hinside⟩
          · exact ⟨hfound.1.trans hrest.1, hrest.2⟩

section Sequences
variable {items : List Rule} {frag : Rule → Fragment} {steps : List (Fragment × PathSet)}

/-- An item that was matched over some text is not given up, as the rest is promised then. -/
theorem choose_advances (hfrag : ∀ item ∈ items, (frag item).Paced s c d item)
    (heq : steps.map (·.1) = items.map frag) (he : e.Valid s c) (hp : e.run.Within c p)
    (hfenced : Fenced s c stop e.run items steps)
    (hkept : Kept s.grammar e.run.Reads e.run.Known stop items steps p) (hadv : e.Advanced p)
    (hinside : e.Inside p stop) :
    Extract.Gives s c (choose stop steps p) e (e.Advances s d p stop) := by
  induction items generalizing steps p e with
  | nil =>
      cases hfenced
      cases hkept
      exact .pure he ⟨.refl e, hadv, .nil s e d _⟩
  | cons item items ih =>
      cases hfenced with
      | @cons f _ _ after steps hf hafter hfenced =>
      obtain ⟨rfl, htail⟩ := List.cons.inj heq
      have hpaced := hfrag item List.mem_cons_self
      have hwithin : ∀ p' ∈ ({p} : PathSet), e.run.Within c p' := by simpa using hp
      rw [choose]
      refine ((hf.reach c e {p} stop he hwithin).keeping (hpaced.reach {p} stop)).bind
        fun stops e₁ he₁ hg₁ hreach => ?_
      obtain ⟨⟨hfound, -⟩, hsearches⟩ := hreach
      have hp₁ := hg₁.run.within hp
      have hadv₁ := hsearches.advanced hg₁ hadv
      -- a candidate lies on the way to the stop
      have hcandidate : ∀ q ∈ stops.toList.reverse.filter (· ∈ after),
          q ∈ after ∧ e₁.run.Leads s item p q ∧ p.Upto q ∧ q.Upto stop := by
        intro q hq
        simp only [List.mem_filter, List.mem_reverse, Std.ExtTreeSet.mem_toList,
          decide_eq_true_eq] at hq
        obtain ⟨-, p', hp', hl⟩ := hfound q hq.1
        rw [SortedSet.mem_singleton.mp hp'] at hl
        exact ⟨hq.2, hl, he₁.run.leads_upto hl, he.run.leads_upto (hafter q hq.2).leads⟩
      have hstops : ∀ q ∈ stops.toList.reverse.filter (· ∈ after), p.Upto q ∧ e₁.Inside p q := by
        intro q hq
        obtain ⟨-, -, hpq, hqstop⟩ := hcandidate q hq
        exact ⟨hpq, hg₁.inside (hinside.inner (Nat.le_refl _) hqstop.index_le)⟩
      refine ((hf.firstBuilt_gives p _ (PathSet.descending stops _) e₁ he₁ hp₁).and
        (hpaced.firstBuilt_advances _ hstops he₁ hp₁ hadv₁)).bind fun found e₂ he₂ hg₂ hfirst => ?_
      obtain ⟨hfirst, hstores, hadv₂⟩ := hfirst
      have hstores := hsearches.stores.trans hstores
      have hg := hg₁.trans hg₂
      cases found with
      | none => exact .pure he₂ ⟨hstores, hadv₂⟩
      | some built =>
          obtain ⟨q, nodes⟩ := built
          obtain ⟨hqafter, hl, hpq, hqstop⟩ := hcandidate q hfirst.1
          obtain ⟨hadv₂, hnodes⟩ := hadv₂
          have hq₂ := hg₂.run.within (he₁.run.leads_within hl hp₁)
          have hkept₂ : Kept s.grammar e₂.run.Reads e₂.run.Known stop items steps q :=
            (hafter q hqafter).mono (fun _ _ => hg.run.reads)
              fun _ _ _ => hg.run.known he.run he₂.run
          have hfenced₂ := hfenced.mono hg.run he.run he₂.run
          have hinside₂ := hg.inside hinside
          refine ((choose_gives items steps q e₂ he₂ hq₂ hfenced₂ hkept₂).and
            (ih (fun item hitem => hfrag item (List.mem_cons_of_mem _ hitem)) htail he₂ hq₂ hfenced₂
              hkept₂ hadv₂ (hinside₂.inner hpq.index_le (Nat.le_refl _)))).bind
            fun found e₃ he₃ hg₃ hrest => ?_
          obtain ⟨hchoose, hrest⟩ := hrest
          refine .pure he₃ ((Extraction.Advances.append hnodes hrest he₃ hpq hqstop ?_).of_stores
            hstores)
          rintro rfl
          obtain rfl | hlt := hpq
          · rfl
          · exact absurd hkept₂ (hchoose _ (hinside₂.clear hlt _))

theorem inSequence_advances (hfrag : ∀ item ∈ items, (frag item).Paced s c d item)
    (he : e.Valid s c) (hp : e.run.Within c p) (hadv : e.Advanced p) (hinside : e.Inside p stop) :
    Extract.Gives s c (inSequence (items.map frag) p stop) e (e.Advances s d p stop) := by
  have hwithin : ∀ p' ∈ ({p} : PathSet), e.run.Within c p' := by simpa using hp
  have hfaithful (item : Rule) (hitem : item ∈ items) := (hfrag item hitem).faithful
  have hreach : ∀ f ∈ items.map frag, ∀ paths, Keeps Searches (f.reach paths stop) := by
    intro f hf paths
    obtain ⟨item, hitem, rfl⟩ := List.mem_map.mp hf
    exact (hfrag item hitem).reach paths stop
  have hsteps {steps : List (Fragment × PathSet)} (heq : steps.map (·.1) = items.map frag) :
      ∀ step ∈ steps, ∀ paths, Keeps Searches (step.1.reach paths stop) :=
    fun step hstep => hreach _ (heq ▸ List.mem_map_of_mem hstep)
  rw [inSequence]
  refine (((layers_gives frag stop he.run items hfaithful {p} e he (.refl _) hwithin).keeping
    (layers_keeps searches_steady stop (items.map frag) {p} hreach)).also
    ((layers_fragments stop (items.map frag) {p} e).mono fun _ _ h found hfound before heq =>
      h before (hfound.trans (congrArg _ heq)))).bind fun found e₁ he₁ hg₁ hpost => ?_
  obtain ⟨⟨hlayers, hsearches₁⟩, hbefore⟩ := hpost
  have hadv₁ := hsearches₁.advanced hg₁ hadv
  cases found with
  | none => exact .pure he₁ ⟨hsearches₁.stores, hadv₁⟩
  | some before =>
      have hbefore := hbefore before rfl
      refine (((prune_gives he.run e₁ he₁ hg₁.run hlayers).keeping
        (prune_keeps searches_steady stop before (hsteps hbefore))).also
        ((prune_fragments stop before e₁).mono fun _ _ h => h)).bind
          fun found e₂ he₂ hg₂ hpost => ?_
      obtain ⟨viable, after⟩ := found
      obtain ⟨⟨⟨hviable, hfenced, -⟩, hsearches₂⟩, hafter⟩ := hpost
      have hg := hg₁.trans hg₂
      have hsearches : e.Searches e₂ := hsearches₂.trans hsearches₁
      have hadv₂ := hsearches.advanced hg hadv
      dsimp only
      split
      · next hmem =>
          refine (choose_advances hfrag (hafter.trans hbefore) he₂ (hg.run.within hp) hfenced
            (hviable p hmem) hadv₂ (hg.inside hinside)).mono fun found e₃ _ _ hchoose => ?_
          exact hchoose.of_stores hsearches.stores
      · exact .pure he₂ ⟨hsearches.stores, hadv₂⟩

end Sequences

section Repetitions
variable {run₀ : Run} {steps : Steps}

open Steps (Explored)

/-- Each iteration is matched over some text, so none is given up. -/
theorem Paced.iterate_advances (hf : f.Paced s c d body) (n : Nat) (he : e.Valid s c)
    (hsteps : Explored s c body stop run₀ e.run steps) (hp : p ∈ viable stop steps)
    (hn : (steps.behind p).length ≤ n) (hadv : e.Advanced p) (hinside : e.Inside p stop) :
    Extract.Gives s c (f.iterate stop steps (viable stop steps) n p) e
      (e.Advances s d p stop) := by
  induction n generalizing p e with
  | zero =>
      rw [iterate]
      split
      · next heq =>
          subst heq
          exact .pure he ⟨.refl e, hadv, .nil s e d p⟩
      · exact .pure he ⟨.refl e, hadv⟩
  | succ n ih =>
      have hwithin := hsteps.within p (mem_steps_of_viable hp)
      have hnext := Steps.getElem?_of_mem (mem_steps_of_viable hp)
      rw [iterate]
      split
      · next heq =>
          subst heq
          exact .pure he ⟨.refl e, hadv, .nil s e d p⟩
      · next hne =>
          have hcandidate : ∀ q ∈ (steps.getD p []).reverse.filter (viable stop steps).contains,
              q ∈ viable stop steps ∧ p < q ∧ e.run.Leads s body p q ∧ q.Upto stop := by
            intro q hq
            simp only [List.mem_filter, List.mem_reverse, Std.TreeSet.contains_iff_mem] at hq
            obtain ⟨hlt, hl⟩ := hsteps.leads p _ hnext q hq.1
            exact ⟨hq.2, hlt, hl, he.run.leads_upto (hsteps.leads_of_viable hq.2)⟩
          have hsorted : ((steps.getD p []).reverse.filter (viable stop steps).contains).Pairwise
              fun a b => b < a :=
            List.Pairwise.filter _ (List.pairwise_reverse.mpr (hsteps.sorted p _ hnext))
          have hstops : ∀ q ∈ (steps.getD p []).reverse.filter (viable stop steps).contains,
              p.Upto q ∧ e.Inside p q := by
            intro q hq
            obtain ⟨-, -, hl, hqstop⟩ := hcandidate q hq
            exact ⟨he.run.leads_upto hl, hinside.inner (Nat.le_refl _) hqstop.index_le⟩
          refine ((hf.faithful.firstBuilt_gives p _ hsorted e he hwithin).and
            (hf.firstBuilt_advances _ hstops he hwithin hadv)).bind
              fun found e₁ he₁ hg₁ hfirst => ?_
          obtain ⟨hfirst, hstores, hadv₁⟩ := hfirst
          cases found with
          | none => exact .pure he₁ ⟨hstores, hadv₁⟩
          | some built =>
              obtain ⟨q, nodes⟩ := built
              obtain ⟨hviable, hlt, hl, hqstop⟩ := hcandidate q hfirst.1
              obtain ⟨hadv₁, hnodes⟩ := hadv₁
              have hpq := he.run.leads_upto hl
              have hindex : p.index < q.index := hpq.lt_of_ne fun heq =>
                Position.le_refl q (heq ▸ hlt)
              have hsteps₁ := hsteps.mono hg₁.run he.run he₁.run
              have hinside₁ := hg₁.inside hinside
              have hbehind : (steps.behind q).length ≤ n := by
                have := Steps.length_behind_lt hlt (mem_steps_of_viable hviable)
                omega
              refine ((hf.faithful.iterate_gives n q e₁ he₁ hsteps₁ hviable hbehind).and
                (ih he₁ hsteps₁ hviable hbehind hadv₁
                  (hinside₁.inner hpq.index_le (Nat.le_refl _)))).bind
                fun found e₂ he₂ hg₂ hrest => ?_
              obtain ⟨hiterate, hrest⟩ := hrest
              refine .pure he₂ ((Extraction.Advances.append hnodes hrest he₂ hpq
                hqstop ?_).of_stores hstores)
              rintro rfl
              obtain ⟨hstop, hnone⟩ := hiterate
              obtain ⟨q', hq', hviable', -, hl'⟩ := hsteps₁.viable_next hviable hstop
              exact absurd hl' (hnone _ (hinside₁.clear hindex _) q' hq' hviable')

theorem Paced.inRepetition_advances (hf : f.Paced s c d body) (he : e.Valid s c)
    (hp : e.run.Within c p) (hadv : e.Advanced p) (hinside : e.Inside p stop) :
    Extract.Gives s c (f.inRepetition (s.pathBound e.run) p stop) e (e.Advances s d p stop) := by
  rw [inRepetition]
  split
  · next heq =>
      subst heq
      exact .pure he ⟨.refl e, hadv, .nil s e d p⟩
  · refine ((hf.faithful.explore_closes p stop e he hp).keeping (explore_keeps searches_steady
      (fun paths => hf.reach paths stop) _ _ _)).bind fun steps e₁ he₁ hg₁ hpost => ?_
    obtain ⟨⟨hsteps, -, -⟩, hsearches⟩ := hpost
    have hadv₁ := hsearches.advanced hg₁ hadv
    dsimp only
    split
    · next hviable =>
        have hbound : (steps.behind p).length ≤ steps.size := by
          rw [← Std.TreeMap.length_keys]
          exact List.length_filter_le _ _
        refine (hf.iterate_advances steps.size he₁ hsteps hviable hbound hadv₁
          (hg₁.inside hinside)).mono fun found e₂ _ _ hiterate => ?_
        exact hiterate.of_stores hsearches.stores
    · exact .pure he₁ ⟨hsearches.stores, hadv₁⟩

end Repetitions

end Fragment
end Multipath
