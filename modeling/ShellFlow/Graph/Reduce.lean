import ShellFlow.Graph.Basic

/-!
# Reduction trees

Many streams become one by a command that takes two at a time.  Each stream may come with auxiliary
streams, so the plan is made over groups of edges.
-/

namespace ShellFlow

structure ReducePlan where
  /-- Inputs and outputs of each call, in order. -/
  calls : List (List Int × List Int) := []
  groups : List (List Int) := []
  /-- New pipes, in order. -/
  pipes : List (Channel Int) := []
  source : ChannelSource

/-- Calls for neighbouring groups.  A call has as many outputs as the group of `shape` at its place.
-/
def pairUp (s : ChannelSource) : List (List Int) → List (List Int) → ReducePlan
  | shape, a :: b :: rest =>
    let made := s.freshPipes (shape.headD []).length
    let ids := made.1.map (·.ident)
    let plan := pairUp made.2 (shape.drop 2) rest
    { calls := (a ++ b, ids) :: plan.calls
      groups := ids :: plan.groups
      pipes := made.1 ++ plan.pipes
      source := plan.source }
  | _, _ => { source := s }

variable (s : ChannelSource)

def reduceLevel (groups : List (List Int)) : ReducePlan :=
  if groups.length % 2 = 0 then pairUp s groups groups
  else
    let plan := pairUp s groups groups.tail
    { plan with groups := groups.headD [] :: plan.groups }

/-!
### Termination

Every level has about half as many groups as the one before it.
-/

theorem length_pairUp (shape groups : List (List Int)) :
    (pairUp s shape groups).groups.length = groups.length / 2 := by
  fun_induction pairUp s shape groups with
  | case1 s shape a b rest made ids plan ih =>
    simp only [plan, List.length_cons] at *
    omega
  | case2 gs _ _ h =>
    match gs, h with
    | [], _ => simp
    | [_], _ => simp
    | a :: b :: rest, h => exact absurd rfl (h a b rest)

theorem length_reduceLevel (groups : List (List Int)) :
    (reduceLevel s groups).groups.length = (groups.length + 1) / 2 := by
  unfold reduceLevel
  split
  · rw [length_pairUp]; omega
  · simp only [List.length_cons, length_pairUp, List.length_tail]; omega

/-! ### The tree -/

/-- All levels of the tree. -/
def reducePlan (s : ChannelSource) (groups : List (List Int)) : ReducePlan :=
  if h : groups.length ≤ 1 then { groups, source := s }
  else
    let level := reduceLevel s groups
    have : (reduceLevel s groups).groups.length < groups.length := by
      rw [length_reduceLevel]; omega
    let rest := reducePlan level.source level.groups
    { calls := level.calls ++ rest.calls
      groups := rest.groups
      pipes := level.pipes ++ rest.pipes
      source := rest.source }
termination_by groups.length

structure Reduction where
  nodes : List Node
  pipes : List (Channel Int)
  final : Int
  source : ChannelSource

/-- Channels that swallow `k` streams. -/
def drains (s : ChannelSource) : Nat → List (Channel Int) × ChannelSource
  | 0 => ([], s)
  | k + 1 =>
    let (c, s) := s.freshFor (.file (Word.ofString "/dev/null"))
    let (cs, s) := drains s k
    (c :: cs, s)

/-- The nodes of a reduction tree; `command` makes the node of one call. -/
def reduceTree (command : List Int → List Int → Build Node) (groups : List (List Int))
    (s : ChannelSource) : Build Reduction := do
  let plan := reducePlan s groups
  let nodes ← plan.calls.mapM fun (ins, outs) => command ins outs
  match plan.groups with
  | (final :: extra) :: _ =>
    let (sinks, source) := drains plan.source extra.length
    let cats ← (extra.zip sinks).mapM fun (e, c) => Node.cat [e] c.ident
    return { nodes := nodes ++ cats, pipes := plan.pipes ++ sinks, final, source }
  | _ => throw .outOfRange

end ShellFlow
