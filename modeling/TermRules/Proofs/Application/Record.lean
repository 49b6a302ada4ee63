import TermRules.Application
import TermRules.Proofs.Term.Traversal

/-!
# The record of an application

An application counts and logs what it does while it walks over a tree. To speak of single visits,
the same rules are tried in the same way with a record of every visit (`Ruleset.run`): the place,
the node after the rules, and the firings.

The record tells everything that the application counts and logs. To count and to log is a way to
carry out a record (`liftM`), which goes through the rules of a node (`tryRules_liftM`) and through
the whole tree (`Term.traverse_liftM`). So an application gives the tree of the run, its log
consists of the recorded firings, and its statistics are the numbers of the recorded visits and
firings: `Ruleset.transformLogged_eq`.
-/

namespace TermRules

/-! ## Visits in another monad -/

section Lift

variable {m n : Type → Type} [MonadLiftT m n]

/-- The visits, carried out in another monad. -/
def Term.Visitor.lift (visit : Term.Visitor m) : Term.Visitor n := fun c v x => liftM (visit c v x)

theorem Term.Visitor.lift_apply (visit : Term.Visitor m) (c : TermClass) (v : Visit)
    (x : NodeOf c) : visit.lift (n := n) c v x = liftM (visit c v x) := rfl

variable [Monad m] [Monad n] [LawfulMonadLiftT m n]

theorem tryRules_liftM (fire : Firing → m Unit) (index : Nat) {c : TermClass} (v : Visit)
    (rules : List Rule) (x : NodeOf c) :
    tryRules (fun f => (liftM (fire f) : n Unit)) index v rules x =
      liftM (tryRules fire index v rules x) := by
  induction rules generalizing index x with
  | nil => rw [tryRules, tryRules, liftM_pure]
  | cons r rs ih =>
    rw [tryRules, tryRules]
    split
    · rw [liftM_bind]
      simp only [ih]
    · exact ih (index + 1) x

theorem mapM_eq_liftM [LawfulMonad m] [LawfulMonad n] {α β : Type} {f : α → m β} {g : α → n β}
    (h : ∀ a, g a = liftM (f a)) (as : List α) : as.mapM g = liftM (as.mapM f) := by
  induction as with
  | nil => rw [List.mapM_nil, List.mapM_nil, liftM_pure]
  | cons a as ih => simp only [List.mapM_cons, h, ih, liftM_bind, liftM_pure]

namespace Term

variable [LawfulMonad m] [LawfulMonad n] (visit : Visitor m)

theorem traverseBlock_liftM (v : Visit) (b : Block) :
    traverseBlock (visit.lift (n := n)) v b = liftM (traverseBlock visit v b) := by
  have hleaves (c : TermClass) := mapM_eq_liftM (visit.lift_apply (n := n) c v.enter)
  simp only [traverseBlock, Visitor.lift_apply, hleaves, liftM_bind, liftM_pure]

theorem traverseSubroutine_liftM (v : Visit) (s : Subroutine) :
    traverseSubroutine (visit.lift (n := n)) v s = liftM (traverseSubroutine visit v s) := by
  have harguments := mapM_eq_liftM (visit.lift_apply (n := n) .argument v.enter)
  have hblocks := mapM_eq_liftM (traverseBlock_liftM (n := n) visit v.enter)
  simp only [traverseSubroutine, Visitor.lift_apply, harguments, hblocks, liftM_bind, liftM_pure]

theorem traverseProgram_liftM (v : Visit) (p : Program) :
    traverseProgram (visit.lift (n := n)) v p = liftM (traverseProgram visit v p) := by
  have hsubroutines := mapM_eq_liftM (traverseSubroutine_liftM (n := n) visit v.enter)
  simp only [traverseProgram, Visitor.lift_apply, hsubroutines, liftM_bind, liftM_pure]

theorem traverseNode_liftM (c : TermClass) (v : Visit) (x : NodeOf c) :
    traverseNode (visit.lift (n := n)) c v x = liftM (traverseNode visit c v x) := by
  cases c
  case program => exact traverseProgram_liftM visit v x
  case subroutine => exact traverseSubroutine_liftM visit v x
  case block => exact traverseBlock_liftM visit v x
  all_goals rfl

theorem traverse_liftM (t : Term) :
    t.traverse (visit.lift (n := n)) = liftM (t.traverse visit) := by
  simp only [traverse, traverseNode_liftM, liftM_bind, liftM_pure]

end Term

end Lift

/-! ## The record of a run -/

/-- A visit of a node: its place, the node after the rules, and the firings. -/
structure VisitRecord where
  visit : Visit
  term : Term
  firings : List Firing

/-- The firings of a record of visits, in order. -/
def firingsOf (record : List VisitRecord) : List Firing := record.flatMap (·.firings)

theorem firingsOf_append (xs ys : List VisitRecord) :
    firingsOf (xs ++ ys) = firingsOf xs ++ firingsOf ys := List.flatMap_append

theorem firingsOf_flatMap {α : Type} (as : List α) (f : α → List VisitRecord) :
    firingsOf (as.flatMap f) = as.flatMap fun a => firingsOf (f a) := List.flatMap_assoc

/-- The statistics of a record of visits. -/
def Stats.ofRecord (record : List VisitRecord) : Stats :=
  ⟨record.length, (firingsOf record).length⟩

/-- The node after the given rules, of which the first has the number `index`, with a record of the
firings. -/
def applyRules (index : Nat) {c : TermClass} (v : Visit) (rules : List Rule) (n : NodeOf c) :
    Traced Firing (NodeOf c) :=
  tryRules Traced.emit index v rules n

theorem applyRules_cons (index : Nat) {c : TermClass} (v : Visit) (r : Rule) (rs : List Rule)
    (n : NodeOf c) :
    applyRules index v (r :: rs) n =
      if r.holds ⟨c, n⟩ v then do
        Traced.emit ⟨index, c, n.name⟩
        applyRules (index + 1) v rs (r.apply c v n)
      else applyRules (index + 1) v rs n := rfl

namespace Ruleset

/-- The visit of a node, with its record: all rules are tried on the node. -/
def visitor (R : Ruleset) : Term.Visitor (Traced VisitRecord) := fun c v n =>
  let result := applyRules 0 v R.rules n
  ⟨[⟨v, ⟨c, result.value⟩, result.events⟩], result.value⟩

/-- The changed tree, with the record of all visits. -/
def run (R : Ruleset) (t : Term) : Traced VisitRecord Term := t.traverse R.visitor

end Ruleset

/-! ## What is counted and logged -/

/-- Firings are counted and logged. -/
instance : MonadLift (Traced Firing) Application :=
  ⟨fun x s => ⟨x.events.map Firing.message, x.value, s + ⟨0, x.events.length⟩⟩⟩

/-- Visits are counted, and so are the firings, which are logged. -/
instance : MonadLift (Traced VisitRecord) Application :=
  ⟨fun x s => ⟨(firingsOf x.events).map Firing.message, x.value, s + .ofRecord x.events⟩⟩

instance : LawfulMonadLift (Traced Firing) Application where
  monadLift_pure a := rfl
  monadLift_bind x f := by
    funext s
    refine Traced.ext List.map_append (congrArg (Prod.mk _) (Stats.ext rfl ?_))
    exact congrArg (s.fired + ·) List.length_append |>.trans (Nat.add_assoc ..).symm

theorem Stats.ofRecord_append (xs ys : List VisitRecord) :
    ofRecord (xs ++ ys) = ofRecord xs + ofRecord ys := by
  rw [ofRecord, firingsOf_append, List.length_append, List.length_append]
  rfl

instance : LawfulMonadLift (Traced VisitRecord) Application where
  monadLift_pure a := rfl
  monadLift_bind x f := by
    funext s
    refine Traced.ext ?_ ?_
    · exact (congrArg _ (firingsOf_append ..)).trans List.map_append
    · refine congrArg (Prod.mk _) ?_
      exact (congrArg _ (Stats.ofRecord_append ..)).trans (Stats.add_assoc ..).symm

namespace Ruleset

variable (R : Ruleset)

/-- An application tries the rules on a node as a run does. -/
theorem applyAt_eq_lift : R.applyAt = R.visitor.lift := by
  funext c v n
  have hfire : Application.fire = fun f => liftM (Traced.emit f) := rfl
  have hfirings : firingsOf (R.visitor c v n).events = (applyRules 0 v R.rules n).events :=
    List.append_nil _
  rw [applyAt, hfire, tryRules_liftM]
  funext s
  refine Traced.ext ?_ (congrArg (Prod.mk _) (Stats.ext rfl ?_))
  · exact congrArg (List.map Firing.message) hfirings.symm
  · exact congrArg (s.fired + ·) (congrArg List.length hfirings.symm)

/-- **What an application counts and logs.** The tree is that of the run. The log consists of a
message for each firing that the run records, and a last one with the statistics, which are the
numbers of the recorded visits and firings. -/
theorem transformLogged_eq (t : Term) :
    R.transformLogged t =
      ⟨(firingsOf (R.run t).events).map Firing.message ++
        [.applied (R.run t).events.length (firingsOf (R.run t).events).length],
        (R.run t).value, .ofRecord (R.run t).events⟩ := by
  rw [transformLogged, applyAt_eq_lift, Term.traverse_liftM]
  have hrun : (liftM (t.traverse R.visitor) : Application Term).run .zero =
      ⟨(firingsOf (R.run t).events).map Firing.message, (R.run t).value,
        .ofRecord (R.run t).events⟩ :=
    Traced.ext rfl (congrArg (Prod.mk _) (Stats.zero_add _))
  rw [hrun]
  rfl

theorem transform_eq_run (t : Term) : R.transform t = (R.run t).value := by
  rw [transform, transformLogged_eq]

theorem stats_eq_ofRecord (t : Term) : R.stats t = .ofRecord (R.run t).events := by
  rw [stats, transformLogged_eq]

theorem visited_eq_length (t : Term) : (R.stats t).visited = (R.run t).events.length :=
  congrArg Stats.visited (R.stats_eq_ofRecord t)

theorem fired_eq_length (t : Term) : (R.stats t).fired = (firingsOf (R.run t).events).length :=
  congrArg Stats.fired (R.stats_eq_ofRecord t)

end Ruleset

end TermRules
