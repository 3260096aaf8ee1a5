import SqpKv.Lib.Simulation
import SqpKv.Cluster.Steps

/-!
# What a run shows

`Cluster.history` lists the calls on single keys.  A run shows more: the calls
of GetAll too (`Cluster.event`), and when the worker of which shard carries out
which call on its RocksDB (`Cluster.happens`).
-/

namespace SqpKv

open Wire Machine History

/-- A call starts or returns, or the worker of a shard carries it out. -/
inductive Happening (Cl : Type) (n : Nat)
  | call (e : CallEvent Cl)
  | deed (id : Cl × Nat) (shard : Fin n) (c : Command)

namespace Happening

variable {Cl : Type} {n : Nat}

def call? : Happening Cl n → Option (CallEvent Cl)
  | .call e => some e
  | .deed _ _ _ => none

theorem filterMap_call? (E : List (CallEvent Cl)) :
    (E.map .call).filterMap (call? : Happening Cl n → _) = E := by
  rw [List.filterMap_map]
  exact List.filterMap_some

/-- Which call is carried out on which shard. -/
def deed? : Happening Cl n → Option ((Cl × Nat) × Fin n)
  | .call _ => none
  | .deed id i _ => some (id, i)

end Happening

namespace Cluster

variable {Cl : Type} {n : Nat}

/-- The calls that start or return with a step, GetAll among them. -/
def event (s : Cluster Cl n) : Action Cl n → List (CallEvent Cl)
  | .call cl c => [.inv (cl, (s.session cl).calls) c]
  | .result cl =>
    match (s.session cl).result with
    | some (_, ret, _) => [.res (cl, (s.session cl).calls) ret]
    | none => []
  | _ => []

/-- The call that a worker carries out with a step. -/
def deeds (s : Cluster Cl n) : Action Cl n → List (Happening Cl n)
  | .workerExec cl i =>
    match ((s.session cl).lane i).worker with
    | .got c => [.deed (cl, (s.session cl).calls) i c]
    | _ => []
  | _ => []

def happens (s : Cluster Cl n) (a : Action Cl n) : List (Happening Cl n) :=
  (event s a).map .call ++ deeds s a

theorem happens_calls (s : Cluster Cl n) (a : Action Cl n) :
    (happens s a).filterMap Happening.call? = event s a := by
  have hdeeds : (deeds s a).filterMap Happening.call? = [] := by
    unfold deeds
    split
    · split <;> rfl
    · rfl
  rw [happens, List.filterMap_append, Happening.filterMap_call?, hdeeds, List.append_nil]

end Cluster

end SqpKv
