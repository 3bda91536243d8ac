import TensorGraph.Proofs.Pass.Balance
import TensorGraph.Proofs.Pass.History

/-! # Requests

What a client asks of a graph: an operation, a run of a pass, or a run of a pipeline. A run does
nothing but operations that the client could ask for one by one, and `commands` lists them in their
order.
-/

namespace TensorGraph

open Arena

variable {g h : Graph} {ids : List NodeId}

/-! ### Pattern passes -/

theorem PatternPass.after_pins (e : pinAll g ids = .ok h) : g.after (ids.map .pin) = h := by
  unfold pinAll at e
  induction ids generalizing g with
  | nil => exact Except.ok.inj e
  | cons id ids ih =>
    rw [List.foldlM_cons] at e
    obtain ⟨i, hi, e⟩ := bind_eq_ok_iff.mp e
    have hpin : ((Command.pin id).perform g).1 = i := by
      rw [Command.perform, hi]
      rfl
    rw [List.map_cons, after_cons, hpin]
    exact ih e

theorem PatternPass.after_unpins (g : Graph) (ids : List NodeId) :
    g.after (ids.map .unpin) = (unpinAll g ids).1 := by
  induction ids generalizing g with
  | nil => rfl
  | cons id ids ih =>
    rw [List.map_cons, after_cons, ih]
    cases e : g.unpin id with
    | ok done =>
      rw [unpinAll_cons_ok e, Command.perform, e]
      rfl
    | error f =>
      rw [unpinAll_cons_error e, Command.perform, e]
      rfl

namespace PatternPass

variable {p : PatternPass} {root : NodeId} {m : Match}

namespace Visit

def commits (p : PatternPass) (v : Visit) : List (Command Body) :=
  match p.rewrite v.graph v.found with
  | .error _ => []
  | .ok plan => if plan.isEmpty then [] else [.commit plan]

/-- The matched nodes are pinned, the rewrite is committed, and they are unpinned. A visit that
overflows does nothing. -/
def commands (p : PatternPass) (v : Visit) : List (Command Body) :=
  match pinAll v.before v.found.nodes, (v.commit p).2 with
  | .error _, _ => []
  | .ok _, .error .overflow => []
  | .ok _, _ => v.found.nodes.map .pin ++ v.commits p ++ v.found.nodes.map .unpin

theorem after_commits (v : Visit) : v.graph.after (v.commits p) = (v.commit p).1 := by
  cases hplan : p.rewrite v.graph v.found with
  | error f => cases f <;> simp only [commits, commit, commitMatch, hplan, after_nil]
  | ok plan =>
    cases hempty : plan.isEmpty with
    | true => simp [commits, commit, commitMatch, hplan, hempty]
    | false =>
      cases e : v.graph.commit plan <;>
        simp [commits, commit, commitMatch, hplan, hempty, Command.perform, e, Command.settle]

end Visit

def commands (p : PatternPass) (g : Graph) : List (Command Body) :=
  (p.trace g).flatMap (Visit.commands p)

theorem visitMatch_fst (g : Graph) (root : NodeId) (m : Match) : (p.visitMatch g root m).1 =
    g.after (Visit.commands p ⟨root, m, g⟩) := by
  cases e : pinAll g m.nodes with
  | error f => simp only [Visit.commands, visitMatch, e, after_nil]
  | ok h =>
    obtain ⟨-, rfl⟩ := (pinAll_eq_ok_iff m.nodup_nodes).mp e
    rcases hc : p.commitMatch (g.pinned m.nodes) m with ⟨c, committed⟩
    have hvisit : (Visit.mk root m g).commit p = (c, committed) := hc
    by_cases hover : committed = .error .overflow
    · simp only [Visit.commands, visitMatch, e, hvisit, hc, hover, after_nil]
    · have hcommit := Visit.after_commits (p := p) ⟨root, m, g⟩
      have hcommands : g.after (Visit.commands p ⟨root, m, g⟩) = (unpinAll c m.nodes).1 := by
        simp only [Visit.graph, hvisit] at hcommit
        simp only [Visit.commands, e, hvisit, after_append, after_pins e, hcommit, after_unpins]
      rw [hcommands]
      simp only [visitMatch, e, hc]
      split
      · contradiction
      all_goals rfl

theorem visitAll_fst (roots : List NodeId) (o : Outcome) : (p.visitAll roots g o).1 =
    g.after ((p.visits roots g).flatMap (Visit.commands p)) := by
  induction roots generalizing g o with
  | nil => rfl
  | cons root roots ih =>
    cases hm : p.matchAt? g root with
    | none =>
      simp only [visitAll, visits, hm]
      exact ih o
    | some m =>
      have hvisit := visitMatch_fst (p := p) g root m
      rcases e : p.visitMatch g root m with ⟨h, f | seen⟩
      · rw [e] at hvisit
        simp only [visitAll, visits, hm, e, List.flatMap_cons, List.flatMap_nil, List.append_nil]
        exact hvisit
      · rw [e] at hvisit
        simp only [visitAll, visits, hm, e, List.flatMap_cons, after_append]
        rw [← hvisit]
        exact ih _

theorem run_fst (p : PatternPass) (g : Graph) : (p.run g).1 = g.after (p.commands g) := by
  cases e : g.topologicalOrder with
  | error f => simp [run, commands, trace, e]
  | ok order =>
    simp only [run, commands, trace, e]
    exact visitAll_fst order .none

end PatternPass

/-! ### Attention -/

namespace Attention

variable {c : Config} {i : Island} {o : Outcome}

/-- The commit of an island, unless a value would leave it that has to stay. -/
def fusion (c : Config) (g : Graph) (i : Island) : List (Command Body) :=
  match i.boundary g with
  | .error _ => []
  | .ok b =>
    if i.permits c b then
      match i.replacement g b with
      | .error _ => []
      | .ok p => [.commit p]
    else []

def fusions (c : Config) : List Island → Ranking → Graph → List (Command Body)
  | [], _, _ => []
  | i :: rest, r, g =>
    match r.refresh g with
    | .error _ => []
    | .ok r =>
      if i.isLive g && i.isConvex g r then
        fusion c g i ++ match fusePermitted c g i with
          | .error _ => []
          | .ok none => fusions c rest r g
          | .ok (some (g, _)) => fusions c rest r g
      else fusions c rest r g

def commands (c : Config) (g : Graph) : List (Command Body) :=
  match Ranking.compute g with
  | .error _ => []
  | .ok r => fusions c ((select (discover c r g).1 r).chosen.map Candidate.island) r g

theorem after_fusion (c : Config) (g : Graph) (i : Island) : g.after (fusion c g i) =
    match fusePermitted c g i with
    | .ok (some (h, _)) => h
    | _ => g := by
  unfold fusion fusePermitted
  cases hb : i.boundary g with
  | error f => rfl
  | ok b =>
    simp only [bind, Except.bind]
    split
    · cases hp : i.replacement g b with
      | error f =>
        simp only [Island.fuse, hp, bind, Except.bind, Functor.map, Except.map, after_nil]
      | ok p =>
        simp only [Island.fuse, hp, bind, Except.bind, after_cons, after_nil, Command.perform]
        cases g.commit p <;> rfl
    · rfl

theorem fuseAll_fst (is : List Island) (r : Ranking) (o : Outcome) :
    (fuseAll c is r g o).1 = g.after (fusions c is r g) := by
  induction is generalizing r g o with
  | nil => rfl
  | cons i is ih =>
    cases hr : r.refresh g with
    | error f => simp [fuseAll, fusions, hr]
    | ok r =>
      simp only [fuseAll, fusions, hr]
      split
      · rw [after_append, after_fusion]
        rcases hf : fusePermitted c g i with f | _ | ⟨h, done⟩
        · rfl
        · exact ih r o
        · exact ih r _
      · exact ih r o

theorem run_fst (c : Config) (g : Graph) : (run c g).1 = g.after (commands c g) := by
  cases e : Ranking.compute g with
  | error f => simp [run, commands, e]
  | ok r =>
    simp only [run, commands, e]
    exact fuseAll_fst _ r _

end Attention

/-! ### Routines -/

inductive Routine where
  | pattern (p : PatternPass)
  | attention (c : Attention.Config)
  | both (name : String) (first second : Routine)

namespace Routine

def pass : Routine → Pass
  | pattern p => p.toPass
  | attention c => Attention.pass c
  | both name first second => .both name first.pass second.pass

def commands : Routine → Graph → List (Command Body)
  | pattern p, g => p.commands g
  | attention c, g => Attention.commands c g
  | both _ first second, g =>
    first.commands g ++ match first.pass.run g with
      | (_, .error _) => []
      | (g, .ok _) => second.commands g

theorem run_fst (r : Routine) (g : Graph) : (r.pass.run g).1 = g.after (r.commands g) := by
  induction r generalizing g with
  | pattern p => exact p.run_fst g
  | attention c => exact Attention.run_fst c g
  | both name first second hfirst hsecond =>
    have h := hfirst g
    simp only [pass, Pass.both, commands, after_append, ← h]
    split
    · rename_i e
      simp only [e, after_nil]
    · rename_i e
      simp only [e, ← hsecond]
      split <;> rename_i e' <;> rw [e']

def sweepCommands : List Routine → Graph → List (Command Body)
  | [], _ => []
  | r :: rs, g =>
    r.commands g ++ match r.pass.runChecked g with
      | (_, .error _) => []
      | (g, .ok _) => sweepCommands rs g

theorem sweep_fst (rs : List Routine) (g : Graph) :
    (Pipeline.sweep (rs.map pass) g).1 = g.after (sweepCommands rs g) := by
  induction rs generalizing g with
  | nil => rfl
  | cons r rs ih =>
    have h := (r.pass.runChecked_fst g).trans (r.run_fst g)
    rw [List.map_cons, Pipeline.sweep, sweepCommands, after_append, ← h]
    split
    · rename_i e
      simp only [e, after_nil]
    · rename_i e
      simp only [e, ← ih]
      split <;> rename_i e' <;> rw [e']

/-- The operations of a sweep and of up to so many more. -/
def iterateCommands (rs : List Routine) : Nat → Graph → List (Command Body)
  | more, g =>
    sweepCommands rs g ++ match Pipeline.sweep (rs.map pass) g with
      | (_, .error _) => []
      | (g, .ok outcomes) =>
        match Pipeline.changedNames (rs.map pass) outcomes, more with
        | _ :: _, more + 1 => iterateCommands rs more g
        | _, _ => []

theorem iterate_fst (rs : List Routine) (more : Nat) (stats : Stats) (g : Graph) :
    (Pipeline.iterate (rs.map pass) more stats g).1 = g.after (iterateCommands rs more g) := by
  induction more generalizing stats g with
  | zero =>
    rw [Pipeline.iterate, iterateCommands, after_append, ← sweep_fst]
    rcases e : Pipeline.sweep (rs.map pass) g with ⟨h, f | outcomes⟩
    · rfl
    · cases hnames : Pipeline.changedNames (rs.map pass) outcomes <;> simp [hnames]
  | succ more ih =>
    rw [Pipeline.iterate, iterateCommands, after_append, ← sweep_fst]
    rcases e : Pipeline.sweep (rs.map pass) g with ⟨h, f | outcomes⟩
    · rfl
    · cases hnames : Pipeline.changedNames (rs.map pass) outcomes <;> simp [hnames, ih]

end Routine

/-! ### Requests -/

inductive Request where
  | command (c : Command Body)
  | run (r : Routine)
  | pipeline (rs : List Routine) (maxSweeps : Nat)

namespace Request

def perform : Request → Graph → Graph
  | command c, g => (c.perform g).1
  | run r, g => (r.pass.run g).1
  | pipeline rs maxSweeps, g => ((Pipeline.mk (rs.map Routine.pass) maxSweeps).run g).1

def commands : Request → Graph → List (Command Body)
  | command c, _ => [c]
  | run r, g => r.commands g
  | pipeline rs maxSweeps, g => Routine.iterateCommands rs (maxSweeps - 1) g

theorem perform_eq_after (r : Request) (g : Graph) : r.perform g = g.after (r.commands g) := by
  cases r with
  | command c => rfl
  | run r => exact r.run_fst g
  | pipeline rs maxSweeps => exact Routine.iterate_fst rs _ _ g

def performAll (rs : List Request) (g : Graph) : Graph := rs.foldl (fun g r => r.perform g) g

def commandsAll : List Request → Graph → List (Command Body)
  | [], _ => []
  | r :: rs, g => r.commands g ++ commandsAll rs (r.perform g)

theorem performAll_eq_after (rs : List Request) (g : Graph) :
    performAll rs g = g.after (commandsAll rs g) := by
  induction rs generalizing g with
  | nil => rfl
  | cons r rs ih =>
    rw [commandsAll, after_append, ← perform_eq_after]
    exact ih _

end Request

end TensorGraph
