import TensorGraph.Pass.Basic

/-! # Pipelines

Passes run in order, sweep after sweep, until a whole sweep changes nothing. A bound on the
sweeps ends a run that does not get there.
-/

namespace TensorGraph

structure Stats where
  sweeps : Nat
  /-- What each pass did in all sweeps, in order. -/
  perPass : List (String × Outcome)
  total : Outcome

structure Pipeline where
  passes : List Pass
  maxSweeps : Nat

namespace Stats

def start (passes : List Pass) : Stats := ⟨0, passes.map fun p => (p.name, .none), .none⟩

/-- One more sweep, with what each pass did in it. -/
def addSweep (s : Stats) (outcomes : List Outcome) : Stats :=
  { sweeps := s.sweeps + 1
    perPass := s.perPass.zipWith (fun (name, sum) o => (name, sum.merge o)) outcomes
    total := outcomes.foldl Outcome.merge s.total }

end Stats

namespace Pipeline

/-- Every pass once. -/
def sweep : List Pass → Graph → Run (List Outcome)
  | [], g => (g, .ok [])
  | p :: passes, g =>
    match p.runChecked g with
    | (g, .error e) => (g, .error e)
    | (g, .ok o) =>
      match sweep passes g with
      | (g, .error e) => (g, .error e)
      | (g, .ok outcomes) => (g, .ok (o :: outcomes))

def changedNames (passes : List Pass) (outcomes : List Outcome) : List String :=
  ((passes.zip outcomes).filter fun x => x.2.changed).map fun x => x.1.name

/-- A sweep, and then up to so many more. -/
def iterate (passes : List Pass) : Nat → Stats → Graph → Run Stats
  | more, stats, g =>
    match sweep passes g with
    | (g, .error e) => (g, .error e)
    | (g, .ok outcomes) =>
      let stats := stats.addSweep outcomes
      match changedNames passes outcomes, more with
      | [], _ => (g, .ok stats)
      | changed, 0 => (g, .error (.nonConvergence stats.sweeps changed))
      | _, more + 1 => iterate passes more stats g

/-- There is always at least one sweep. -/
def run (p : Pipeline) (g : Graph) : Run Stats :=
  iterate p.passes (p.maxSweeps - 1) (.start p.passes) g

end Pipeline

end TensorGraph
