/-!
# Jobs

Collaborators may need time.  Time passes in rounds: in every round each job that is not finished
gets one turn, in order, and it is finished in the turn behind its last wait.  A job is therefore
given by the number of rounds it waits and by its outcome.  Jobs that run side by side end with
the first error that comes up, or else together with the slowest one.

Large batches take turns in another way: the jobs stand in a line, and a round ends as soon as two
jobs in a row were not ready.  Their results are looked at in the order of the jobs, so an error
counts once everything before it is there.

## Main definitions

* `Job` — rounds and outcome.
* `Job.both`, `Job.all` — jobs side by side.
* `Line`, `Job.allInLine` — a large batch.
* `Job.batch` — a batch of any size.
-/

namespace ComponentCompiler

/-- A computation that takes a number of rounds. -/
structure Job (ε α : Type) where
  /-- The number of rounds that it waits. -/
  rounds : Nat
  /-- How it ends. -/
  outcome : Except ε α
  /-- The rounds in which parts of it were reported to be finished. -/
  reports : List Nat := []

namespace Job

variable {ε α β : Type}

/-- A job that does not wait. -/
def now (outcome : Except ε α) : Job ε α := { rounds := 0, outcome }

/-- Go on with the result of a job, without waiting. -/
def andThen (t : Job ε α) (f : α → Except ε β) : Job ε β :=
  { t with outcome := t.outcome.bind f }

/-- See the error of a job as an error of another kind. -/
def mapError {ε' : Type} (f : ε → ε') (t : Job ε α) : Job ε' α :=
  { t with outcome := t.outcome.mapError f }

/-- Report the end of a job if it ends well. -/
def reported (t : Job ε α) : Job ε α :=
  match t.outcome with
  | .ok _ => { t with reports := t.reports ++ [t.rounds] }
  | .error _ => t

/-- The end of two jobs of which the first one fails: the second one had no turn in that round. -/
def failFirst {γ : Type} (t : Job ε α) (e : ε) (other : Job ε β) : Job ε γ :=
  { rounds := t.rounds, outcome := .error e,
    reports := t.reports ++ other.reports.filter (· < t.rounds) }

/-- The end of two jobs of which the second one fails: the first one had its turn in that round. -/
def failSecond {γ : Type} (t : Job ε α) (e : ε) (other : Job ε β) : Job ε γ :=
  { rounds := t.rounds, outcome := .error e,
    reports := other.reports.filter (· ≤ t.rounds) ++ t.reports }

/-- Two jobs side by side; the first one has its turn first. -/
def both (a : Job ε α) (b : Job ε β) : Job ε (α × β) :=
  match a.outcome, b.outcome with
  | .ok x, .ok y =>
      { rounds := max a.rounds b.rounds, outcome := .ok (x, y), reports := a.reports ++ b.reports }
  | .error e, .ok _ => a.failFirst e b
  | .ok _, .error e => b.failSecond e a
  | .error e, .error e' => if a.rounds ≤ b.rounds then a.failFirst e b else b.failSecond e' a

/-- Jobs side by side, with their results in order. -/
def all : List (Job ε α) → Job ε (List α)
  | [] => now (.ok [])
  | t :: ts => (t.both (all ts)).andThen fun (x, xs) => .ok (x :: xs)

end Job

/-! ### Large batches -/

/-- A job in line. -/
structure Waiting (ε α : Type) where
  /-- Its place in the batch. -/
  place : Nat
  /-- The number of turns in which it will not be ready. -/
  turns : Nat
  /-- How it ends. -/
  outcome : Except ε α

/-- A batch whose jobs stand in line. -/
structure Line (ε α : Type) where
  /-- The size of the batch. -/
  size : Nat
  /-- The jobs that are not finished, the next one first. -/
  waiting : List (Waiting ε α)
  /-- The outcomes of the finished jobs, by place. -/
  finished : List (Nat × Except ε α) := []
  /-- The current round. -/
  round : Nat := 0
  /-- Whether the job before was not ready in this round. -/
  missed : Bool := false
  /-- The rounds in which jobs ended well. -/
  reports : List Nat := []

namespace Line

variable {ε α : Type}

/-- The outcome of a batch, if it is known: outcomes from a place on are looked at in order. -/
def outcomeFrom (finished : List (Nat × Except ε α)) (place : Nat) :
    Nat → Option (Except ε (List α))
  | 0 => some (.ok [])
  | n + 1 =>
      match finished.lookup place with
      | none => none
      | some (.error e) => some (.error e)
      | some (.ok x) => (outcomeFrom finished (place + 1) n).map (·.map (x :: ·))

/-- Give the first job in line its turn. -/
def turn (l : Line ε α) (w : Waiting ε α) (ws : List (Waiting ε α)) : Line ε α :=
  match w.turns with
  | 0 =>
      { l with
        waiting := ws, missed := false
        finished := (w.place, w.outcome) :: l.finished
        reports := if w.outcome.isOk then l.reports ++ [l.round] else l.reports }
  | n + 1 =>
      let roundEnds := l.missed || ws.isEmpty
      { l with
        waiting := ws ++ [{ w with turns := n }]
        missed := !roundEnds
        round := if roundEnds then l.round + 1 else l.round }

/-- How many turns jobs in line need. -/
def turnsOf : List (Waiting ε α) → Nat
  | [] => 0
  | w :: ws => w.turns + 1 + turnsOf ws

theorem turnsOf_concat (ws : List (Waiting ε α)) (w : Waiting ε α) :
    turnsOf (ws ++ [w]) = turnsOf ws + (w.turns + 1) := by
  induction ws with
  | nil => simp only [List.nil_append, turnsOf, Nat.add_comm]
  | cons v ws ih =>
    rw [List.cons_append, turnsOf, turnsOf, ih]
    omega

/-- How many turns a line needs. -/
def work (l : Line ε α) : Nat := turnsOf l.waiting

theorem work_turn_lt (l : Line ε α) (w : Waiting ε α) (ws : List (Waiting ε α))
    (h : l.waiting = w :: ws) : (l.turn w ws).work < l.work := by
  unfold turn
  split
  · simp only [work, h, turnsOf]
    omega
  · next n hn =>
    simp only [work, h, turnsOf_concat, turnsOf]
    omega

/-- Give turns until the outcome is known. -/
def run (l : Line ε α) : Job ε (List α) :=
  match outcomeFrom l.finished 0 l.size with
  | some outcome => { rounds := l.round, outcome, reports := l.reports }
  | none =>
      match h : l.waiting with
      | [] => { rounds := l.round, outcome := .ok [], reports := l.reports }
      | w :: ws =>
          have := l.work_turn_lt w ws h
          (l.turn w ws).run
termination_by l.work

end Line

namespace Job

variable {ε α : Type}

/-- Jobs in line, with their results in order. -/
def allInLine (ts : List (Job ε α)) : Job ε (List α) :=
  Line.run
    { size := ts.length
      waiting := ts.mapIdx fun i t => { place := i, turns := t.rounds, outcome := t.outcome } }

/-- The size up to which every job of a batch has a turn in every round. -/
def smallBatch : Nat := 30

/-- A batch of jobs, with their results in order. -/
def batch (ts : List (Job ε α)) : Job ε (List α) :=
  if ts.length ≤ smallBatch then all ts else allInLine ts

end Job

end ComponentCompiler
