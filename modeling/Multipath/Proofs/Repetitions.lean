import Multipath.Proofs.Sequences

/-!
Extraction of repetitions. Exploring lists, for each position that iterations lead to, where one
more of them leads; it comes to an end before its bound does, there being fewer positions than
that. Of these the viable ones lead to the stop by iterations that consume something, and taking
the furthest of them each time never leads away from the stop.
-/

namespace Multipath

theorem dropWhile_cases {α : Type} (seen : α → Bool) (as : List α) :
    (as.dropWhile seen = [] ∧ ∀ a ∈ as, seen a = true) ∨
      ∃ front a rest, as = front ++ a :: rest ∧ as.dropWhile seen = a :: rest ∧
        seen a = false ∧ ∀ b ∈ front, seen b = true := by
  induction as with
  | nil => exact .inl ⟨rfl, fun a ha => absurd ha List.not_mem_nil⟩
  | cons a as ih =>
      cases ha : seen a with
      | false =>
          refine .inr ⟨[], a, as, rfl, ?_, ha, fun b hb => absurd hb List.not_mem_nil⟩
          exact List.dropWhile_cons_of_neg (by simp [ha])
      | true =>
          rw [List.dropWhile_cons_of_pos ha]
          obtain ⟨hnil, hall⟩ | ⟨front, b, rest, has, hdrop, hb, hfront⟩ := ih
          · refine .inl ⟨hnil, fun b hb => ?_⟩
            obtain rfl | hb := List.mem_cons.mp hb
            · exact ha
            · exact hall b hb
          · refine .inr ⟨a :: front, b, rest, by rw [has]; rfl, hdrop, hb, fun b' hb' => ?_⟩
            obtain rfl | hb' := List.mem_cons.mp hb'
            · exact ha
            · exact hfront b' hb'

namespace Fragment

variable {s : Session} {c : Scope s.source} {e : Extraction} {f : Fragment} {body : Rule}

namespace Steps

/-- The steps that an iteration takes from each position listed: it leads there and consumes
something, and those are all that `run₀` knows of up to the stop. -/
structure Explored (s : Session) (c : Scope s.source) (body : Rule) (stop : Position)
    (run₀ run : Run) (steps : Steps) : Prop where
  within : ∀ p ∈ steps, run.Within c p
  sorted : ∀ (p : Position) next, steps[p]? = some next → next.Pairwise (· < ·)
  leads : ∀ (p : Position) next, steps[p]? = some next →
    ∀ q ∈ next, p < q ∧ run.Leads s body p q
  all : ∀ (p : Position) next, steps[p]? = some next →
    ∀ q, run₀.Leads s body p q → p < q → q ≤ stop → q ∈ next

variable {steps : Steps} {stop p q : Position} {next : List Position} {run₀ run run' : Run}

theorem getElem?_insert (steps : Steps) (p : Position) (next : List Position) (q : Position) :
    (steps.insert p next)[q]? = if q = p then some next else steps[q]? := by
  simp only [Std.TreeMap.getElem?_insert, Std.LawfulEqOrd.compare_eq_iff_eq, @eq_comm _ q]

theorem mem_insert : q ∈ steps.insert p next ↔ q = p ∨ q ∈ steps := by
  simp only [Std.TreeMap.mem_insert, Std.LawfulEqOrd.compare_eq_iff_eq, @eq_comm _ q]

theorem explored_empty : Explored s c body stop run₀ run ∅ where
  within p hp := by simp at hp
  sorted p next h := by simp at h
  leads p next h := by simp at h
  all p next h := by simp at h

theorem Explored.mono (h : Explored s c body stop run₀ run steps) (hg : run.Grows run')
    (hv : run.Valid s c) (hv' : run'.Valid s c) : Explored s c body stop run₀ run' steps where
  within p hp := hg.within (h.within p hp)
  sorted := h.sorted
  leads p next hn q hq := ⟨(h.leads p next hn q hq).1, hg.leads hv hv' (h.leads p next hn q hq).2⟩
  all := h.all

theorem Explored.insert (h : Explored s c body stop run₀ run steps) (hp : run.Within c p)
    (hsorted : next.Pairwise (· < ·)) (hleads : ∀ q ∈ next, p < q ∧ run.Leads s body p q)
    (hall : ∀ q, run₀.Leads s body p q → p < q → q ≤ stop → q ∈ next) :
    Explored s c body stop run₀ run (steps.insert p next) where
  within q hq := by
    obtain rfl | hq := mem_insert.mp hq
    · exact hp
    · exact h.within q hq
  sorted q next' hn := by
    rw [getElem?_insert] at hn
    split at hn
    · cases hn
      exact hsorted
    · exact h.sorted q next' hn
  leads q next' hn := by
    rw [getElem?_insert] at hn
    split at hn
    · next heq =>
        cases hn
        rw [heq]
        exact hleads
    · exact h.leads q next' hn
  all q next' hn := by
    rw [getElem?_insert] at hn
    split at hn
    · next heq =>
        cases hn
        rw [heq]
        exact hall
    · exact h.all q next' hn

/-- Every step leads to a position that is listed. -/
def Closed (steps : Steps) : Prop :=
  ∀ (p : Position) next, steps[p]? = some next → ∀ q ∈ next, q ∈ steps

/-- Every step leads to a position that is listed or pending. -/
def OpenTo (steps : Steps) (pending : List Position) : Prop :=
  ∀ (p : Position) next, steps[p]? = some next → ∀ q ∈ next, q ∈ steps ∨ q ∈ pending

theorem openTo_empty (pending : List Position) : OpenTo ∅ pending := by
  intro p next h
  simp at h

theorem OpenTo.closed {pending : List Position} (h : steps.OpenTo pending)
    (hlisted : ∀ p ∈ pending, p ∈ steps) : steps.Closed :=
  fun p next hn q hq => (h p next hn q hq).elim id (hlisted q)

/-- Exploring a pending position makes its steps pending. -/
theorem OpenTo.insert {front rest : List Position} (h : steps.OpenTo (front ++ p :: rest))
    (hfront : ∀ q ∈ front, q ∈ steps) : OpenTo (steps.insert p next) (next.reverse ++ rest) := by
  intro q next' hn q' hq'
  rw [getElem?_insert] at hn
  split at hn
  · cases hn
    exact .inr (List.mem_append.mpr (.inl (List.mem_reverse.mpr hq')))
  · obtain hq' | hq' := h q next' hn q' hq'
    · exact .inl (mem_insert.mpr (.inr hq'))
    · rw [List.mem_append, List.mem_cons] at hq'
      obtain hq' | rfl | hq' := hq'
      · exact .inl (mem_insert.mpr (.inr (hfront q' hq')))
      · exact .inl (mem_insert.mpr (.inl rfl))
      · exact .inr (List.mem_append.mpr (.inr hq'))

end Steps

open Steps

/-- The steps from a position, in increasing order. -/
theorem Faithful.reach_beyond (hf : f.Faithful s c body) (c' : Scope s.source) (p stop : Position)
    (e : Extraction) (he : e.Valid s c') (hp : e.run.Within c' p) :
    Extract.Gives s c' (f.reach {p} stop) e fun stops e' =>
      (stops.toList.filter (p < ·)).Pairwise (· < ·) ∧
        (∀ q ∈ stops.toList.filter (p < ·), p < q ∧ e'.run.Leads s body p q) ∧
        ∀ q, e.run.Leads s body p q → p < q → q ≤ stop → q ∈ stops.toList.filter (p < ·) := by
  have hwithin : ∀ q ∈ ({p} : PathSet), e.run.Within c' q := by simpa using hp
  refine (hf.reach c' e {p} stop he hwithin).mono fun stops e' _ _ hreach => ?_
  obtain ⟨hfound, hall⟩ := hreach
  refine ⟨List.Pairwise.filter _ ?_, fun q hq => ?_, fun q hl hlt hle => ?_⟩
  · exact Std.ExtTreeSet.ordered_toList.imp fun h => Position.compare_eq_lt.mp h
  · obtain ⟨hq, hlt⟩ := List.mem_filter.mp hq
    obtain ⟨-, p', hp', hl⟩ := hfound q (Std.ExtTreeSet.mem_toList.mp hq)
    rw [SortedSet.mem_singleton.mp hp'] at hl
    exact ⟨by simpa using hlt, hl⟩
  · have hmem := hall p (SortedSet.mem_singleton.mpr rfl) q hl hle
    exact List.mem_filter.mpr ⟨Std.ExtTreeSet.mem_toList.mpr hmem, by simpa using hlt⟩

/-- Exploring lists all that is pending and what follows, or it is stopped by its bound in front of
a position that is not listed. -/
theorem Faithful.explore_gives (hf : f.Faithful s c body) (c' : Scope s.source)
    (stop : Position) {run₀ : Run} (hv₀ : run₀.Valid s c') (n : Nat) (pending : List Position)
    (steps : Steps) (e : Extraction) (he : e.Valid s c') (hg₀ : run₀.Grows e.run)
    (hpending : ∀ p ∈ pending, e.run.Within c' p)
    (hsteps : Explored s c' body stop run₀ e.run steps) (hopen : steps.OpenTo pending) :
    Extract.Gives s c' (f.explore stop n pending steps) e fun steps' e' =>
      Explored s c' body stop run₀ e'.run steps' ∧ (∀ p ∈ steps, p ∈ steps') ∧
        ((∀ p ∈ pending, p ∈ steps') ∧ steps'.Closed ∨
          ∃ p, p ∉ steps' ∧ e'.run.Within c' p ∧ steps'.size = steps.size + n) := by
  induction n generalizing pending steps e with
  | zero =>
      refine .pure he ⟨hsteps, fun _ hp => hp, ?_⟩
      by_cases hall : ∀ p ∈ pending, p ∈ steps
      · exact .inl ⟨hall, hopen.closed hall⟩
      · simp only [Classical.not_forall] at hall
        obtain ⟨p, hp, hnot⟩ := hall
        exact .inr ⟨p, hnot, hpending p hp, rfl⟩
  | succ n ih =>
      rw [explore]
      obtain ⟨hnil, hall⟩ | ⟨front, p, rest, heq, hdrop, hnew, hfront⟩ :=
        dropWhile_cases steps.contains pending
      · rw [hnil]
        have hlisted (p : Position) (hp : p ∈ pending) : p ∈ steps :=
          Std.TreeMap.mem_iff_contains.mpr (hall p hp)
        exact .pure he ⟨hsteps, fun _ hp => hp, .inl ⟨hlisted, hopen.closed hlisted⟩⟩
      · subst heq
        rw [hdrop]
        have hlisted (q : Position) (hq : q ∈ front) : q ∈ steps :=
          Std.TreeMap.mem_iff_contains.mpr (hfront q hq)
        have hp : e.run.Within c' p := hpending p (by simp)
        refine (hf.reach_beyond c' p stop e he hp).bind fun stops e₁ he₁ hg₁ hreach => ?_
        obtain ⟨hsorted, hnext, hall⟩ := hreach
        have hp₁ := hg₁.run.within hp
        have hsteps₁ := (hsteps.mono hg₁.run he.run he₁.run).insert hp₁ hsorted hnext
          fun q hl hlt hle => hall q (hg₀.leads hv₀ he.run hl) hlt hle
        have hpending₁ : ∀ q ∈ (stops.toList.filter (p < ·)).reverse ++ rest,
            e₁.run.Within c' q := by
          intro q hq
          obtain hq | hq := List.mem_append.mp hq
          · exact he₁.run.leads_within (hnext q (List.mem_reverse.mp hq)).2 hp₁
          · exact hg₁.run.within (hpending q (by simp [hq]))
        refine (ih _ _ e₁ he₁ (hg₀.trans hg₁.run) hpending₁ hsteps₁ (hopen.insert hlisted)).mono
          fun steps' e₂ _ _ hpost => ?_
        obtain ⟨hsteps', hkept, hend⟩ := hpost
        have hkept' (q : Position) (hq : q ∈ steps) : q ∈ steps' :=
          hkept q (Steps.mem_insert.mpr (.inr hq))
        refine ⟨hsteps', hkept', hend.imp (fun hdone => ⟨fun q hq => ?_, hdone.2⟩) ?_⟩
        · rw [List.mem_append, List.mem_cons] at hq
          obtain hq | rfl | hq := hq
          · exact hkept' q (hlisted q hq)
          · exact hkept q (Steps.mem_insert.mpr (.inl rfl))
          · exact hdone.1 q (List.mem_append.mpr (.inr hq))
        · intro hstuck
          obtain ⟨q, hq, hq', hsize⟩ := hstuck
          refine ⟨q, hq, hq', ?_⟩
          rw [hsize, Std.TreeMap.size_insert, if_neg (by simp [hnew])]
          omega

section Viable
variable {stop p q : Position} {next : List Position} {steps : Steps}

/-- The viable positions among some entries, given in increasing order. -/
def viableIn (stop : Position) (entries : List (Position × List Position)) :
    Std.TreeSet Position :=
  entries.foldr (fun entry later =>
    if entry.1 = stop || entry.2.any later.contains then later.insert entry.1 else later) ∅

theorem viable_eq (stop : Position) (steps : Steps) :
    viable stop steps = viableIn stop steps.toList := Std.TreeMap.foldr_eq_foldr_toList

theorem mem_viableIn_cons {entry : Position × List Position}
    {entries : List (Position × List Position)} :
    q ∈ viableIn stop (entry :: entries) ↔ q ∈ viableIn stop entries ∨
      q = entry.1 ∧ (entry.1 = stop ∨ ∃ m ∈ entry.2, m ∈ viableIn stop entries) := by
  simp only [viableIn, List.foldr_cons]
  split
  · next h =>
      have hviable : entry.1 = stop ∨ ∃ m ∈ entry.2, m ∈ viableIn stop entries := by
        simpa [viableIn] using h
      simp only [Std.TreeSet.mem_insert, Std.LawfulEqOrd.compare_eq_iff_eq, @eq_comm _ q]
      constructor
      · exact fun hq => hq.elim (fun hq => .inr ⟨hq, hviable⟩) .inl
      · exact fun hq => hq.elim .inr fun hq => .inl hq.1
  · next h =>
      have hnot : ¬(entry.1 = stop ∨ ∃ m ∈ entry.2, m ∈ viableIn stop entries) := by
        simpa [viableIn] using h
      exact ⟨.inl, fun hq => hq.elim id fun hq => absurd hq.2 hnot⟩

theorem fst_of_mem_viableIn {entries : List (Position × List Position)}
    (h : q ∈ viableIn stop entries) : ∃ next, (q, next) ∈ entries := by
  induction entries with
  | nil => simp [viableIn] at h
  | cons entry entries ih =>
      obtain h | ⟨rfl, -⟩ := mem_viableIn_cons.mp h
      · obtain ⟨next, hmem⟩ := ih h
        exact ⟨next, List.mem_cons_of_mem _ hmem⟩
      · exact ⟨entry.2, List.mem_cons_self⟩

/-- Whether an entry is viable is settled by the entries behind it, which are all greater. -/
theorem mem_viableIn_iff {entries : List (Position × List Position)}
    (hsorted : entries.Pairwise fun a b => a.1 < b.1)
    (hforward : ∀ entry ∈ entries, ∀ m ∈ entry.2, entry.1 < m) (h : (p, next) ∈ entries) :
    p ∈ viableIn stop entries ↔ p = stop ∨ ∃ m ∈ next, m ∈ viableIn stop entries := by
  induction entries with
  | nil => cases h
  | cons entry entries ih =>
      obtain ⟨hlt, hsorted⟩ := List.pairwise_cons.mp hsorted
      -- adding the least entry makes no difference to greater positions
      have hgreater (m : Position) (hm : entry.1 < m) :
          m ∈ viableIn stop (entry :: entries) ↔ m ∈ viableIn stop entries := by
        rw [mem_viableIn_cons]
        refine ⟨fun hmem => hmem.elim id fun hsame => ?_, .inl⟩
        rw [hsame.1] at hm
        exact absurd hm (Position.le_refl _)
      have hsame (p : Position) (next : List Position) (hnext : ∀ m ∈ next, entry.1 < m) :
          (∃ m ∈ next, m ∈ viableIn stop (entry :: entries)) ↔
            ∃ m ∈ next, m ∈ viableIn stop entries := by
        constructor
        · intro hlater
          obtain ⟨m, hm, hv⟩ := hlater
          exact ⟨m, hm, (hgreater m (hnext m hm)).mp hv⟩
        · intro hlater
          obtain ⟨m, hm, hv⟩ := hlater
          exact ⟨m, hm, (hgreater m (hnext m hm)).mpr hv⟩
      obtain rfl | hmem := List.mem_cons.mp h
      · rw [hsame p next fun m hm => hforward (p, next) List.mem_cons_self m hm, mem_viableIn_cons]
        refine ⟨fun hv => hv.elim (fun hv => ?_) And.right, fun hv => .inr ⟨rfl, hv⟩⟩
        obtain ⟨next', hp⟩ := fst_of_mem_viableIn hv
        exact absurd (hlt _ hp) (Position.le_refl p)
      · have hp : entry.1 < p := hlt _ hmem
        rw [hgreater p hp, ih hsorted (fun a ha => hforward a (List.mem_cons_of_mem _ ha)) hmem,
          hsame p next fun m hm => ?_]
        have := hforward (p, next) h m hm
        simp only [Position.lt_def] at hp this ⊢
        omega

theorem leads_of_mem_viableIn {g : Grammar} {reads : Position → Token → Prop}
    {refers : RuleId → Position → Position → Prop} {entries : List (Position × List Position)}
    (hleads : ∀ entry ∈ entries, ∀ m ∈ entry.2, g.Leads reads refers body entry.1 m)
    (h : q ∈ viableIn stop entries) : g.Leads reads refers (.repetition body) q stop := by
  induction entries generalizing q with
  | nil => simp [viableIn] at h
  | cons entry entries ih =>
      have ih' {m : Position} (hm : m ∈ viableIn stop entries) :
          g.Leads reads refers (.repetition body) m stop :=
        ih (fun a ha => hleads a (List.mem_cons_of_mem _ ha)) hm
      obtain h | ⟨rfl, hstop | ⟨m, hm, hv⟩⟩ := mem_viableIn_cons.mp h
      · exact ih' h
      · rw [hstop]
        exact .stop
      · exact .again (hleads entry List.mem_cons_self m hm) (ih' hv)

theorem Steps.getElem?_of_mem (h : p ∈ steps) : steps[p]? = some (steps.getD p []) :=
  Std.TreeMap.getElem?_eq_some_getD h

theorem mem_steps_of_viable (h : p ∈ viable stop steps) : p ∈ steps := by
  rw [viable_eq] at h
  obtain ⟨next, hmem⟩ := fst_of_mem_viableIn h
  rw [Std.TreeMap.mem_iff_isSome_getElem?, Std.TreeMap.mem_toList_iff_getElem?_eq_some.mp hmem]
  rfl

theorem mem_viable_iff (hforward : ∀ (p : Position) next, steps[p]? = some next →
      ∀ q ∈ next, p < q) (h : steps[p]? = some next) :
    p ∈ viable stop steps ↔ p = stop ∨ ∃ q ∈ next, q ∈ viable stop steps := by
  rw [viable_eq]
  refine mem_viableIn_iff ?_ ?_ (Std.TreeMap.mem_toList_iff_getElem?_eq_some.mpr h)
  · exact Std.TreeMap.ordered_keys_toList.imp fun hlt => Position.compare_eq_lt.mp hlt
  · intro entry hmem q hq
    exact hforward entry.1 entry.2 (Std.TreeMap.mem_toList_iff_getElem?_eq_some.mp hmem) q hq

theorem Steps.Explored.forward {run₀ run : Run} (hsteps : Explored s c body stop run₀ run steps)
    (p : Position) (next : List Position) (hnext : steps[p]? = some next) :
    ∀ q ∈ next, p < q :=
  fun q hq => (hsteps.leads p next hnext q hq).1

/-- From a viable position in front of the stop, an iteration leads to a viable one behind it. -/
theorem Steps.Explored.viable_next {run₀ run : Run}
    (hsteps : Explored s c body stop run₀ run steps) (h : p ∈ viable stop steps) (hne : p ≠ stop) :
    ∃ q ∈ steps.getD p [], q ∈ viable stop steps ∧ p < q ∧ run.Leads s body p q := by
  have hnext := Steps.getElem?_of_mem (mem_steps_of_viable h)
  have hviable := (mem_viable_iff hsteps.forward hnext).mp h
  obtain ⟨q, hq, hlater⟩ := hviable.resolve_left hne
  obtain ⟨hlt, hl⟩ := hsteps.leads p _ hnext q hq
  exact ⟨q, hq, hlater, hlt, hl⟩

theorem Steps.Explored.leads_of_viable {run₀ run : Run}
    (hsteps : Explored s c body stop run₀ run steps) (h : p ∈ viable stop steps) :
    run.Leads s (.repetition body) p stop := by
  rw [viable_eq] at h
  refine leads_of_mem_viableIn (fun entry hmem q hq => ?_) h
  exact (hsteps.leads entry.1 entry.2
    (Std.TreeMap.mem_toList_iff_getElem?_eq_some.mp hmem) q hq).2

end Viable

section Iterating
variable {stop : Position} {run₀ : Run} {steps : Steps}

/-- The positions listed behind `p`. -/
def Steps.behind (steps : Steps) (p : Position) : List Position := steps.keys.filter (p < ·)

theorem Steps.length_behind_lt {p q : Position} (hlt : p < q) (hq : q ∈ steps) :
    (steps.behind q).length < (steps.behind p).length := by
  have hmem : q ∈ steps.keys := Std.TreeMap.mem_keys.mpr hq
  unfold behind
  generalize steps.keys = keys at hmem
  induction keys with
  | nil => cases hmem
  | cons k keys ih =>
      have hle : (keys.filter (q < ·)).length ≤ (keys.filter (p < ·)).length := by
        rw [← List.countP_eq_length_filter, ← List.countP_eq_length_filter]
        refine List.countP_mono_left fun a _ ha => ?_
        simp only [decide_eq_true_eq, Position.lt_def] at ha hlt ⊢
        omega
      obtain rfl | hmem := List.mem_cons.mp hmem
      · have hself : ¬q < q := Position.le_refl q
        simp only [List.filter_cons, hlt, hself, decide_true, decide_false, if_true,
          List.length_cons, Bool.false_eq_true, if_false]
        omega
      · have := ih hmem
        simp only [List.filter_cons, decide_eq_true_eq]
        split
        · next hk =>
            have hpk : p < k := by
              simp only [Position.lt_def] at hk hlt ⊢
              omega
            simp only [hpk, if_true, List.length_cons]
            omega
        · split
          · simp only [List.length_cons]
            omega
          · exact this

/-- From a viable position, iterating leads to the stop unless the way that was promised for the
next iteration is barred. -/
theorem Faithful.iterate_gives (hf : f.Faithful s c body) (n : Nat) (p : Position)
    (e : Extraction) (he : e.Valid s c) (hsteps : Explored s c body stop run₀ e.run steps)
    (hp : p ∈ viable stop steps) (hn : (steps.behind p).length ≤ n) :
    Extract.Gives s c (f.iterate stop steps (viable stop steps) n p) e fun found e' =>
      match found with
      | some ts => e'.run.Matches s (.repetition body) p stop ts
      | none => p ≠ stop ∧ ∀ m, e.Clear m p stop → ∀ q ∈ steps.getD p [],
          q ∈ viable stop steps →
            ¬s.grammar.Leads e.run.Reads (e.run.Settled m) body p q := by
  induction n generalizing p e with
  | zero =>
      rw [iterate]
      split
      · next heq =>
          rw [heq]
          exact .pure he .stop
      · next hne =>
          obtain ⟨q, -, hviable, hlt, -⟩ := hsteps.viable_next hp hne
          have := Steps.length_behind_lt hlt (mem_steps_of_viable hviable)
          omega
  | succ n ih =>
      have hnext := Steps.getElem?_of_mem (mem_steps_of_viable hp)
      rw [iterate]
      split
      · next heq =>
          rw [heq]
          exact .pure he .stop
      · next hne =>
          have hsorted : ((steps.getD p []).reverse.filter (viable stop steps).contains).Pairwise
              fun a b => b < a :=
            List.Pairwise.filter _ (List.pairwise_reverse.mpr (hsteps.sorted p _ hnext))
          refine (hf.firstBuilt_gives p _ hsorted e he
            (hsteps.within p (mem_steps_of_viable hp))).bind fun found e₁ he₁ hg₁ hfirst => ?_
          cases found with
          | none =>
              refine .pure he₁ ⟨hne, fun m hclear q hq hviable hl => ?_⟩
              have hle := (he.run.leads_upto (hsteps.leads_of_viable hviable)).index_le
              refine hfirst q ?_ ⟨m, hclear.inner (Nat.le_refl _) hle, hl⟩
              simp [hq, hviable]
          | some built =>
              obtain ⟨q, nodes⟩ := built
              obtain ⟨hq, hnodes, -⟩ := hfirst
              simp only [List.mem_filter, List.mem_reverse, Std.TreeSet.contains_iff_mem] at hq
              obtain ⟨hq, hviable⟩ := hq
              obtain ⟨hlt, hl⟩ := hsteps.leads p _ hnext q hq
              have hindex : p.index < q.index := by
                refine (he.run.leads_upto hl).lt_of_ne fun heq => ?_
                rw [heq] at hlt
                exact absurd hlt (Position.le_refl q)
              have hsteps₁ := hsteps.mono hg₁.run he.run he₁.run
              have hbehind := Steps.length_behind_lt hlt (mem_steps_of_viable hviable)
              refine (ih q e₁ he₁ hsteps₁ hviable (by omega)).bind fun found e₂ he₂ hg₂ hrest => ?_
              cases found with
              | some ts =>
                  exact .pure he₂ (.again hindex (hg₂.run.matches he₁.run he₂.run hnodes) hrest)
              | none =>
                  -- what is left lies strictly within, and a way on from there is known
                  refine .pure he₂ ⟨hne, fun m hclear _ _ _ _ => ?_⟩
                  obtain ⟨hstop, hnone⟩ := hrest
                  obtain ⟨q', hq', hviable', -, hl'⟩ := hsteps₁.viable_next hviable hstop
                  refine hnone e₁.run.arena.size (hg₁.clear ?_) q' hq' hviable' hl'
                  exact hclear.strictly (Nat.le_of_lt hindex) (Nat.le_refl _) (.inl hindex) _

/-- A way by iterations from a position that is listed goes through viable ones. -/
theorem Steps.Explored.viable_of_leads {run : Run}
    (hsteps : Explored s c body stop run₀ run steps) (hclosed : steps.Closed)
    (hv₀ : run₀.Valid s c) {p : Position} (hp : p ∈ steps)
    (h : run₀.Leads s (.repetition body) p stop) : p ∈ viable stop steps := by
  generalize hrule : Rule.repetition body = rule at h
  induction h with
  | stop => exact (mem_viable_iff hsteps.forward (Steps.getElem?_of_mem hp)).mpr (.inl rfl)
  | @again _ p m q hbody hrest _ ih =>
      cases hrule
      by_cases heq : p = m
      · rw [heq] at hp ⊢
        exact ih hsteps hp rfl
      · have hnext := Steps.getElem?_of_mem hp
        have hlt : p < m := .inl ((hv₀.leads_upto hbody).lt_of_ne heq)
        have hm := hsteps.all p _ hnext m hbody hlt (hv₀.leads_upto hrest).le
        have hviable := ih hsteps (hclosed p _ hnext m hm) rfl
        exact (mem_viable_iff hsteps.forward hnext).mpr (.inr ⟨m, hm, hviable⟩)
  | _ => cases hrule

/-- Exploring from a single position is never stopped by the bound. -/
theorem Faithful.explore_closes (hf : f.Faithful s c body) (start stop : Position)
    (e : Extraction) (he : e.Valid s c) (hstart : e.run.Within c start) :
    Extract.Gives s c (f.explore stop (s.pathBound e.run) [start] ∅) e fun steps e' =>
      Explored s c body stop e.run e'.run steps ∧ start ∈ steps ∧ steps.Closed := by
  have hwithin : ∀ p ∈ ({start} : PathSet), e.run.Within c p := by simpa using hstart
  have hexplore (c' : Scope s.source) (he' : e.Valid s c') (hstart' : e.run.Within c' start) :=
    hf.explore_gives c' stop he'.run (s.pathBound e.run) [start] ∅ e he' (.refl _)
      (by simpa using hstart') Steps.explored_empty (Steps.openTo_empty _)
  -- the positions listed are few when counted from the start alone
  have hcount := hexplore (he.run.scope hwithin) ⟨he.run.valid_scope hwithin, he.built⟩
    (he.run.within_scope hwithin start (SortedSet.mem_singleton.mpr rfl))
  refine Ensures.mono ((hexplore c he hstart).and hcount) ?_
  intro result e' hpost
  obtain ⟨⟨he', hg, hgives⟩, hvalid, -, hgives'⟩ := hpost
  refine ⟨he', hg, ?_⟩
  cases result with
  | error f => exact hgives
  | ok steps =>
      obtain ⟨hlisted, -, ⟨hpending, hclosed⟩ | ⟨p, hp, hfar, hsize⟩⟩ := hgives'
      · exact ⟨hgives.1, hpending start List.mem_cons_self, hclosed⟩
      · have hnodup : (p :: steps.keys).Nodup := by
          refine List.nodup_cons.mpr ⟨fun hmem => ?_, Std.TreeMap.nodup_keys⟩
          exact hp (Std.TreeMap.mem_keys.mp hmem)
        have hlt := he.run.length_lt_of_within hwithin hvalid.run hnodup (by
          intro q hq
          obtain rfl | hq := List.mem_cons.mp hq
          · exact hfar
          · exact hlisted.within q (Std.TreeMap.mem_keys.mp hq))
        have hsingle : ({start} : PathSet).size ≤ 1 := Std.ExtTreeSet.size_insert_le
        rw [List.length_cons, Std.TreeMap.length_keys, hsize, Std.TreeMap.size_emptyc] at hlt
        omega

/-- Repetitions of a fragment are extracted as promised. -/
theorem Faithful.inRepetition_gives (hf : f.Faithful s c body) (start stop : Position)
    (e : Extraction) (he : e.Valid s c) (hstart : e.run.Within c start) :
    Extract.Gives s c (f.inRepetition (s.pathBound e.run) start stop) e
      (e.Fulfils s (.repetition body) start stop) := by
  rw [inRepetition]
  split
  · next heq =>
      rw [heq]
      exact .pure he .stop
  · next hne =>
      refine (hf.explore_closes start stop e he hstart).bind fun steps e₁ he₁ hg₁ hpost => ?_
      obtain ⟨hsteps, hlisted, hclosed⟩ := hpost
      dsimp only
      split
      · next hviable =>
          have hbound : (steps.behind start).length ≤ steps.size := by
            rw [← Std.TreeMap.length_keys]
            exact List.length_filter_le _ _
          refine (hf.iterate_gives steps.size start e₁ he₁ hsteps hviable hbound).mono
            fun found e₂ _ _ hiterate => ?_
          cases found with
          | some ts => exact hiterate
          | none =>
              intro hpr
              obtain ⟨n, hclear, hl⟩ := hpr
              obtain ⟨m, hstartm, hbody, hrest⟩ := hl.iteration hne
              have hlt : start < m := .inl ((he.run.leads_upto hbody).lt_of_ne hstartm)
              have hknown : e.run.Leads s body start m := he.run.leads_of_settled hbody
              have hm := hsteps.all start _ (Steps.getElem?_of_mem hlisted) m hknown hlt
                (he.run.leads_upto hrest).le
              have hviable : m ∈ viable stop steps :=
                hsteps.viable_of_leads hclosed he.run (hclosed start _
                  (Steps.getElem?_of_mem hlisted) m hm) (he.run.leads_of_settled hrest)
              exact hiterate.2 n (hg₁.clear hclear) m hm hviable
                (hg₁.run.leads_settled he.run hbody)
      · next hviable =>
          refine .pure he₁ fun hpr => ?_
          obtain ⟨n, -, hl⟩ := hpr
          exact hviable (hsteps.viable_of_leads hclosed he.run hlisted (he.run.leads_of_settled hl))

end Iterating

end Fragment
end Multipath
