import ComponentCompiler.Job

/-!
# What comes out of jobs side by side

Whichever way jobs take their turns, the end is the same as far as a caller can rely on it: if all
of them end well, the results are there in the order of the jobs, and else the error of one of them.

For a batch in line this needs an invariant of its turns: every job is either in line or finished,
and each outcome that was noted is the one of the job at its place.  So as long as some outcome is
missing there is still a job in line.

## Main definitions

* `Job.Settles` — what may come out of jobs with given outcomes.
* `Line.Sound` — the invariant of a batch in line.

## Main results

* `Job.both_outcome` — two jobs side by side.
* `Line.settles_run` — a batch in line.
* `Job.settles_batch` — **a batch of any size gives all results in order, or the error of one job**.
-/

namespace ComponentCompiler

namespace Job

variable {ε α β : Type}

/-- What may come out of jobs with these outcomes: all results in order, or an error of one of
them. -/
inductive Settles (os : List (Except ε α)) : Except ε (List α) → Prop where
  /-- All end well. -/
  | ok {xs : List α} (h : os = xs.map .ok) : Settles os (.ok xs)
  /-- One of them fails. -/
  | error {e : ε} (h : .error e ∈ os) : Settles os (.error e)

/-- Two jobs side by side end well if both do, and else with an error of one of them. -/
theorem both_outcome (a : Job ε α) (b : Job ε β) :
    (∃ x y, a.outcome = .ok x ∧ b.outcome = .ok y ∧ (a.both b).outcome = .ok (x, y)) ∨
    ∃ e, (a.outcome = .error e ∨ b.outcome = .error e) ∧ (a.both b).outcome = .error e := by
  unfold both
  cases ha : a.outcome with
  | ok x =>
    cases hb : b.outcome with
    | ok y => exact .inl ⟨x, y, rfl, rfl, rfl⟩
    | error e => exact .inr ⟨e, .inr rfl, rfl⟩
  | error e =>
    cases hb : b.outcome with
    | ok y => exact .inr ⟨e, .inl rfl, rfl⟩
    | error e' =>
      by_cases h : a.rounds ≤ b.rounds
      · exact .inr ⟨e, .inl rfl, by simp only [h, if_true, failFirst]⟩
      · exact .inr ⟨e', .inr rfl, by simp only [h, if_false, failSecond]⟩

/-- The same for any number of jobs, each side by side with all behind it. -/
theorem settles_all (ts : List (Job ε α)) : Settles (ts.map outcome) (all ts).outcome := by
  induction ts with
  | nil => exact .ok rfl
  | cons t ts ih =>
    -- the rest is one job next to the first
    show Settles (t.outcome :: ts.map outcome) ((t.both (all ts)).outcome.bind _)
    rcases t.both_outcome (all ts) with ⟨x, xs, ht, hts, hboth⟩ | ⟨e, he, hboth⟩
    · rw [hts] at ih
      cases ih with
      | ok h =>
        rw [hboth, ht, h]
        exact .ok rfl
    · rw [hboth]
      refine .error ?_
      rcases he with he | he
      · rw [he]
        exact List.mem_cons_self
      · rw [he] at ih
        cases ih with
        | error h => exact List.mem_cons_of_mem _ h

end Job

namespace Line

variable {ε α : Type} {os : List (Except ε α)} {l : Line ε α}

open Job (Settles)

/-- A batch in line whose jobs have the given outcomes. -/
structure Sound (os : List (Except ε α)) (l : Line ε α) : Prop where
  /-- There are as many jobs as outcomes. -/
  size : l.size = os.length
  /-- What was noted at a place is the outcome of the job there. -/
  finished : ∀ i o, l.finished.lookup i = some o → os[i]? = some o
  /-- A job in line has the outcome of its place. -/
  waiting : ∀ w ∈ l.waiting, os[w.place]? = some w.outcome
  /-- Every job is finished or in line. -/
  covered : ∀ i, i < l.size → l.finished.lookup i ≠ none ∨ ∃ w ∈ l.waiting, w.place = i

/-- One turn keeps the invariant. -/
theorem Sound.turn (h : l.Sound os) {w : Waiting ε α} {ws : List (Waiting ε α)}
    (hw : l.waiting = w :: ws) : (l.turn w ws).Sound os := by
  have hplace : os[w.place]? = some w.outcome := h.waiting w (hw ▸ List.mem_cons_self)
  have hrest : ∀ v ∈ ws, os[v.place]? = some v.outcome := fun v hv =>
    h.waiting v (hw ▸ List.mem_cons_of_mem w hv)
  have hcovered : ∀ i, i < l.size →
      l.finished.lookup i ≠ none ∨ w.place = i ∨ ∃ v ∈ ws, v.place = i := by
    intro i hi
    rcases h.covered i hi with hi | ⟨v, hv, rfl⟩
    · exact .inl hi
    · rw [hw] at hv
      rcases List.mem_cons.1 hv with rfl | hv
      · exact .inr (.inl rfl)
      · exact .inr (.inr ⟨v, hv, rfl⟩)
  unfold Line.turn
  split
  · -- the job is finished: its outcome is noted at its place
    refine ⟨h.size, fun i o ho => ?_, hrest, fun i hi => ?_⟩
    · simp only [List.lookup_cons] at ho
      split at ho
      · next heq =>
        rw [beq_iff_eq.1 heq, hplace]
        exact ho
      · exact h.finished i o ho
    · simp only [List.lookup_cons]
      rcases hcovered i hi with hi | rfl | hi
      · left
        split
        · nofun
        · exact hi
      · left
        rw [beq_self_eq_true]
        nofun
      · exact .inr hi
  · -- the job goes to the end of the line
    next n _ =>
    refine ⟨h.size, h.finished, fun v hv => ?_, fun i hi => ?_⟩
    · rcases List.mem_append.1 hv with hv | hv
      · exact hrest v hv
      · rw [List.mem_singleton.1 hv]
        exact hplace
    · rcases hcovered i hi with hi | rfl | ⟨v, hv, rfl⟩
      · exact .inl hi
      · exact .inr ⟨_, List.mem_append_right _ List.mem_cons_self, rfl⟩
      · exact .inr ⟨v, List.mem_append_left _ hv, rfl⟩

/-- An outcome that is known from the places from one on. -/
theorem settles_outcomeFrom {finished : List (Nat × Except ε α)}
    (hf : ∀ i o, finished.lookup i = some o → os[i]? = some o) {place n : Nat}
    (hlen : place + n = os.length) {r : Except ε (List α)}
    (h : outcomeFrom finished place n = some r) : Settles (os.drop place) r := by
  -- the places are gone through from the first on, so the outcomes that are left are a tail
  induction n generalizing place r with
  | zero =>
    cases h
    refine .ok ?_
    rw [List.drop_of_length_le (by omega), List.map_nil]
  | succ n ih =>
    rw [outcomeFrom] at h
    split at h
    · cases h
    · next e he =>
      cases h
      obtain ⟨hlt, hget⟩ := List.getElem?_eq_some_iff.1 (hf place _ he)
      refine .error ?_
      rw [List.drop_eq_getElem_cons hlt, hget]
      exact List.mem_cons_self
    · next x hx =>
      obtain ⟨r', hr', rfl⟩ := Option.map_eq_some_iff.1 h
      obtain ⟨hlt, hget⟩ := List.getElem?_eq_some_iff.1 (hf place _ hx)
      rw [List.drop_eq_getElem_cons hlt, hget]
      cases ih (by omega) hr' with
      | ok hxs =>
        rw [hxs]
        exact .ok rfl
      | error he => exact .error (List.mem_cons_of_mem _ he)

/-- As long as no outcome is known, some place has none. -/
theorem exists_place_of_outcomeFrom_eq_none {finished : List (Nat × Except ε α)} {place n : Nat}
    (h : outcomeFrom finished place n = none) :
    ∃ i, i < place + n ∧ finished.lookup i = none := by
  induction n generalizing place with
  | zero => cases h
  | succ n ih =>
    rw [outcomeFrom] at h
    split at h
    · next hnone => exact ⟨place, by omega, hnone⟩
    · cases h
    · obtain ⟨i, hi, hnone⟩ := ih (Option.map_eq_none_iff.1 h)
      exact ⟨i, by omega, hnone⟩

/-- A batch in line gives all results in order, or the error of one job. -/
theorem settles_run (h : l.Sound os) : Settles os l.run.outcome := by
  fun_induction Line.run l with
  | case1 l outcome hout =>
    have := settles_outcomeFrom h.finished (by rw [h.size]; omega) hout
    rwa [List.drop_zero] at this
  | case2 l hout hw =>
    -- nobody is in line, so by the invariant no place can be without an outcome
    obtain ⟨i, hi, hnone⟩ := exists_place_of_outcomeFrom_eq_none hout
    rcases h.covered i (by omega) with hi | ⟨w, hw', -⟩
    · exact absurd hnone hi
    · rw [hw] at hw'
      cases hw'
  | case3 l hout w ws hw _ ih => exact ih (h.turn hw)

end Line

namespace Job

variable {ε α : Type}

theorem settles_allInLine (ts : List (Job ε α)) :
    Settles (ts.map outcome) (allInLine ts).outcome := by
  refine Line.settles_run ⟨?_, nofun, fun w hw => ?_, fun i hi => ?_⟩
  · exact (List.length_map _).symm
  · obtain ⟨i, hi, rfl⟩ := List.mem_mapIdx.1 hw
    rw [List.getElem?_map, List.getElem?_eq_getElem hi]
    rfl
  · exact .inr ⟨_, List.mem_mapIdx.2 ⟨i, hi, rfl⟩, rfl⟩

/-- **A batch of any size gives all results in order, or the error of one job.** -/
theorem settles_batch (ts : List (Job ε α)) : Settles (ts.map outcome) (batch ts).outcome := by
  unfold batch
  split
  · exact settles_all ts
  · exact settles_allInLine ts

end Job

end ComponentCompiler
