import SqpKv.Cluster.Linearizability
import SqpKv.Server.Scan

/-!
# The steps of the cluster

A step either moves one session and adds its events to the history, or is a
worker's call of the RocksDB of its shard (`step_cases`).
-/

namespace SqpKv

open Wire Machine

/-- Only a Put adds a key. -/
theorem KvWorker.mem_handle {notFound : Bytes} {db : Store} {c : Command} {key : Bytes}
    (h : key ∈ (KvWorker.handle notFound db c).1) : key ∈ db ∨ ∃ value, c = .put key value := by
  cases c with
  | get key' =>
    left
    unfold KvWorker.handle at h
    dsimp only at h
    split at h <;> exact h
  | put key' value =>
    rcases Std.TreeMap.mem_insert.1 h with heq | hmem
    · rw [Std.LawfulEqOrd.eq_of_compare heq]
      exact .inr ⟨value, rfl⟩
    · exact .inl hmem
  | delete key' => exact .inl (Std.TreeMap.mem_erase.1 h).2
  | getAll keyPrefix => exact .inl h

namespace Cluster

variable {Cl : Type} {n : Nat} {notFound : Bytes} {s s' : Cluster Cl n}

/-- A step of the session of `cl` that leaves the stores alone, and its events. -/
inductive SessionStep (cl : Cl) (t : Session n) : Session n → List (CallEvent Cl) → Prop
  | call {c : Command} {t' : Session n} (h : t.call c = some t') :
      SessionStep cl t t' (log c (.inv (cl, t.calls) c))
  | result {c : Command} {ret : CallResult} {t' : Session n} (h : t.result = some (c, ret, t')) :
      SessionStep cl t t' (log c (.res (cl, t.calls) ret))
  | proxyStep {t' : Session n} (h : t.proxyStep = some t') : SessionStep cl t t' []
  | workerRead {i : Fin n} {t' : Session n} (h : t.workerRead i = some t') :
      SessionStep cl t t' []
  | workerSend {i : Fin n} {t' : Session n} (h : t.workerSend i = some t') :
      SessionStep cl t t' []

namespace SessionStep

variable {cl : Cl} {t t' : Session n} {E : List (CallEvent Cl)}

theorem shape (h : SessionStep cl t t' E) (hshape : ∃ st, t.Shape st) : ∃ st, t'.Shape st := by
  obtain ⟨st, hshape⟩ := hshape
  cases h with
  | call h =>
    rcases (hshape.call h).2.2 with ⟨_, -, h'⟩ | ⟨-, h'⟩
    · exact ⟨_, h'⟩
    · exact ⟨_, h'⟩
  | result h => exact ⟨_, (hshape.result h).2.1⟩
  | proxyStep h => exact ⟨_, (hshape.proxyStep h).1⟩
  | workerRead h => exact ⟨_, (hshape.workerRead h).1⟩
  | workerSend h => exact ⟨_, (hshape.workerSend h).1⟩

theorem calls_le (h : SessionStep cl t t' E) (hshape : ∃ st, t.Shape st) : t.calls ≤ t'.calls := by
  obtain ⟨st, hshape⟩ := hshape
  cases h with
  | call h => exact (hshape.call h).2.1.ge
  | result h =>
    rw [(hshape.result h).1]
    exact Nat.le_succ _
  | proxyStep h => exact (hshape.proxyStep h).2.ge
  | workerRead h => exact (hshape.workerRead h).2.ge
  | workerSend h => exact (hshape.workerSend h).2.ge

/-- A session that is in a GetAll goes on with it, or the call returns. -/
theorem gathers {Q : Fin n → List Bytes → Prop} {R : Nat → List Bytes → Prop}
    (h : SessionStep cl t t' E) (hj : Session.Joins Q R) (hshape : t.Shape .scanning)
    (hg : t.Gathers Q R) :
    (t'.calls = t.calls ∧ t'.Shape .scanning ∧ t'.Gathers Q R ∧ t'.pending = t.pending) ∨
      (t'.calls = t.calls + 1 ∧ t'.Shape .idle) := by
  cases h with
  | call h => cases (hshape.call h).1
  | result h =>
    obtain ⟨hcalls, hidle, -⟩ := hshape.result h
    exact .inr ⟨hcalls, hidle⟩
  | proxyStep h =>
    obtain ⟨hshape', hcalls⟩ := hshape.proxyStep h
    exact .inl ⟨hcalls, hshape', hg.proxyStep hj hshape h⟩
  | workerRead h =>
    obtain ⟨hshape', hcalls⟩ := hshape.workerRead h
    exact .inl ⟨hcalls, hshape', hg.workerRead hshape h⟩
  | workerSend h =>
    obtain ⟨hshape', hcalls⟩ := hshape.workerSend h
    exact .inl ⟨hcalls, hshape', hg.workerSend hshape h⟩

end SessionStep

section

variable [DecidableEq Cl]

@[simp] theorem setSession_session_self {cl : Cl} {t : Session n} :
    (s.setSession cl t).session cl = t := Function.update_self ..

/-- What holds of all sessions, when one changes. -/
theorem forall_session {P : Cl → Session n → Prop} (h : ∀ cl, P cl (s.session cl)) {cl : Cl}
    {t : Session n} (ht : P cl t) (cl' : Cl) : P cl' ((s.setSession cl t).session cl') :=
  (Function.forall_update_iff s.session P).2 ⟨ht, fun cl' _ => h cl'⟩ cl'

/-- **What a step can do.** -/
theorem step_cases {a : Action Cl n} (hs : step notFound s a = some s') :
    (∃ cl t E, SessionStep cl (s.session cl) t E ∧
        s' = { s.setSession cl t with history := s.history ++ E }) ∨
      ∃ cl i db t, (s.session cl).workerExec notFound i (s.db i) = some (db, t) ∧
        s' = { s.setSession cl t with db := Function.update s.db i db } := by
  have silent : ∀ {cl t}, SessionStep cl (s.session cl) t [] →
      ∃ cl' t' E, SessionStep cl' (s.session cl') t' E ∧
        s.setSession cl t = { s.setSession cl' t' with history := s.history ++ E } :=
    fun {cl t} h => ⟨cl, t, [], h, by rw [List.append_nil]; rfl⟩
  cases a with
  | call cl c =>
    obtain ⟨t, ht, hs⟩ := Option.bind_eq_some_iff.1 hs
    cases hs
    exact .inl ⟨cl, t, _, .call ht, rfl⟩
  | result cl =>
    obtain ⟨⟨c, ret, t⟩, ht, hs⟩ := Option.bind_eq_some_iff.1 hs
    cases hs
    exact .inl ⟨cl, t, _, .result ht, rfl⟩
  | proxyStep cl =>
    obtain ⟨t, ht, hs⟩ := Option.bind_eq_some_iff.1 hs
    cases hs
    exact .inl (silent (.proxyStep ht))
  | workerRead cl i =>
    obtain ⟨t, ht, hs⟩ := Option.bind_eq_some_iff.1 hs
    cases hs
    exact .inl (silent (.workerRead ht))
  | workerExec cl i =>
    obtain ⟨⟨db, t⟩, ht, hs⟩ := Option.bind_eq_some_iff.1 hs
    cases hs
    exact .inr ⟨cl, i, db, t, ht, rfl⟩
  | workerSend cl i =>
    obtain ⟨t, ht, hs⟩ := Option.bind_eq_some_iff.1 hs
    cases hs
    exact .inl (silent (.workerSend ht))

end

end Cluster

end SqpKv
