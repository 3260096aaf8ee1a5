import SqpKv.Lib.Confluence
import Mathlib.Logic.Function.Basic

/-!
# Processes that exchange messages

A `Proc` is a sequential program with a memory of its own that sends to and
receives from other processes by rank, and takes part in broadcasts.  Channels
are queues, one for every sender, receiver and kind; a receive names its source
and waits for it, a broadcast waits for nobody at its root and for the root
elsewhere.  There is no choice in a program, so a step of one process commutes
with a step of another (`commutes`), and

    one run ends with process i done, in memory x   →
    whenever process i is done, its result and its memory are these    (done_unique)
-/

namespace Processes

open Function Machine

/-- A program; `σ` is its memory, `μ` a message, `ε` what it can fail with, `α` its result. -/
inductive Proc (σ μ ε α : Type)
  | done (a : α)
  | fault (e : ε)
  | load (k : σ → Proc σ μ ε α)
  | store (x : σ) (k : Proc σ μ ε α)
  | send (dest : Nat) (m : μ) (k : Proc σ μ ε α)
  | recv (source : Nat) (k : μ → Proc σ μ ε α)
  | bcast (root : Nat) (m : μ) (k : μ → Proc σ μ ε α)

variable {σ μ ε α β : Type}

namespace Proc

def bind : Proc σ μ ε α → (α → Proc σ μ ε β) → Proc σ μ ε β
  | done a, f => f a
  | fault e, _ => fault e
  | load k, f => load fun x => (k x).bind f
  | store x k, f => store x (k.bind f)
  | send dest m k, f => send dest m (k.bind f)
  | recv source k, f => recv source fun m => (k m).bind f
  | bcast root m k, f => bcast root m fun m => (k m).bind f

instance : Monad (Proc σ μ ε) where
  pure := done
  bind := bind

theorem bind_done (p : Proc σ μ ε α) : p.bind done = p := by
  induction p with
  | done a => rfl
  | fault e => rfl
  | load k ih => exact congrArg load (funext ih)
  | store x k ih => exact congrArg (store x) ih
  | send dest m k ih => exact congrArg (send dest m) ih
  | recv source k ih => exact congrArg (recv source) (funext ih)
  | bcast root m k ih => exact congrArg (bcast root m) (funext ih)

theorem bind_assoc {γ : Type} (p : Proc σ μ ε α) (f : α → Proc σ μ ε β) (g : β → Proc σ μ ε γ) :
    (p.bind f).bind g = p.bind fun a => (f a).bind g := by
  induction p with
  | done a => rfl
  | fault e => rfl
  | load k ih => exact congrArg load (funext ih)
  | store x k ih => exact congrArg (store x) ih
  | send dest m k ih => exact congrArg (send dest m) ih
  | recv source k ih => exact congrArg (recv source) (funext ih)
  | bcast root m k ih => exact congrArg (bcast root m) (funext ih)

instance : LawfulMonad (Proc σ μ ε) := LawfulMonad.mk' _ bind_done (fun _ _ => rfl) bind_assoc

end Proc

/-- Whatever it receives, the program stores only what satisfies `P` if it loads only that, and it
returns what satisfies `Q`. -/
def Proc.Keeps (P : σ → Prop) (Q : α → Prop) : Proc σ μ ε α → Prop
  | done a => Q a
  | fault _ => True
  | load k => ∀ x, P x → (k x).Keeps P Q
  | store x k => P x ∧ k.Keeps P Q
  | send _ _ k => k.Keeps P Q
  | recv _ k => ∀ m, (k m).Keeps P Q
  | bcast _ _ k => ∀ m, (k m).Keeps P Q

namespace Proc.Keeps

variable {P : σ → Prop} {Q : α → Prop} {R : β → Prop}

theorem bind {p : Proc σ μ ε α} {f : α → Proc σ μ ε β} (h : p.Keeps P Q)
    (hf : ∀ a, Q a → (f a).Keeps P R) : (p.bind f).Keeps P R := by
  induction p with
  | done a => exact hf a h
  | fault e => trivial
  | load k ih => exact fun x hx => ih x (h x hx)
  | store x k ih => exact ⟨h.1, ih h.2⟩
  | send dest m k ih => exact ih h
  | recv source k ih => exact fun m => ih m (h m)
  | bcast root m k ih => exact fun m => ih m (h m)

theorem foldlM {ι : Type} {f : β → ι → Proc σ μ ε β} (hf : ∀ b i, R b → (f b i).Keeps P R)
    (l : List ι) (b : β) (hb : R b) : (l.foldlM f b).Keeps P R := by
  induction l generalizing b with
  | nil => exact hb
  | cons i l ih => exact (hf b i hb).bind ih

end Proc.Keeps

/-- A queue of messages from one process to another. -/
structure Channel where
  collective : Bool
  source : Nat
  dest : Nat
deriving DecidableEq

/-- What a step of a process does to the channels. -/
inductive Effect (μ : Type)
  | silent
  | push (m : μ) (cs : Channel → Bool)
  | take (c : Channel)

def Effect.apply : Effect μ → (Channel → List μ) → Channel → List μ
  | silent, chan => chan
  | push m cs, chan => fun c => if cs c then chan c ++ [m] else chan c
  | take c, chan => fun c' => if c' = c then (chan c').tail else chan c'

/-- The channels a broadcast of process `i` among `n` fills. -/
def toOthers (n i : Nat) (c : Channel) : Bool :=
  c.collective && c.source == i && c.dest != i && decide (c.dest < n)

/-- A step of process `i` among `n`, from what is at the head of the channels. -/
def Proc.next (n i : Nat) (x : σ) (head : Channel → Option μ) :
    Proc σ μ ε α → Option (Proc σ μ ε α × σ × Effect μ)
  | done _ => none
  | fault _ => none
  | load k => some (k x, x, .silent)
  | store y k => some (k, y, .silent)
  | send dest m k => some (k, x, .push m fun c => c == ⟨false, i, dest⟩)
  | recv source k => (head ⟨false, source, i⟩).map fun m => (k m, x, .take ⟨false, source, i⟩)
  | bcast root m k =>
    if i = root then some (k m, x, .push m (toOthers n i))
    else (head ⟨true, root, i⟩).map fun m => (k m, x, .take ⟨true, root, i⟩)

/-- `n` processes with their memories and the messages under way. -/
structure Net (n : Nat) (σ μ ε α : Type) where
  proc : Fin n → Proc σ μ ε α
  mem : Fin n → σ
  chan : Channel → List μ

namespace Net

variable {n : Nat}

/-- Nothing under way. -/
def calm (p : Fin n → Proc σ μ ε α) (x : Fin n → σ) : Net n σ μ ε α := ⟨p, x, fun _ => []⟩

def head (s : Net n σ μ ε α) (c : Channel) : Option μ := (s.chan c).head?

/-- Process `i` takes a step. -/
def step (s : Net n σ μ ε α) (i : Fin n) : Option (Net n σ μ ε α) :=
  ((s.proc i).next n i (s.mem i) s.head).map fun r =>
    ⟨update s.proc i r.1, update s.mem i r.2.1, r.2.2.apply s.chan⟩

/-- Process `i` has returned. -/
def Returned (s : Net n σ μ ε α) (i : Fin n) : Prop := ∃ a, s.proc i = .done a

/-- All have returned, or some process can take a step. -/
def Live (s : Net n σ μ ε α) : Prop := (∀ i, s.Returned i) ∨ ∃ i s', s.step i = some s'

theorem step_eq_some {s s' : Net n σ μ ε α} {i : Fin n} :
    s.step i = some s' ↔ ∃ p x e, (s.proc i).next n i (s.mem i) s.head = some (p, x, e) ∧
      s' = ⟨update s.proc i p, update s.mem i x, e.apply s.chan⟩ := by
  unfold step
  rw [Option.map_eq_some_iff]
  constructor
  · rintro ⟨⟨p, x, e⟩, h, rfl⟩
    exact ⟨p, x, e, h, rfl⟩
  · rintro ⟨p, x, e, h, rfl⟩
    exact ⟨(p, x, e), h, rfl⟩

end Net

/-! ## Steps of two processes commute -/

/-- The effect is one that a step of process `i` can have. -/
def Effect.By (i : Nat) (chan : Channel → List μ) : Effect μ → Prop
  | silent => True
  | push _ cs => ∀ c, cs c → c.source = i
  | take c => c.dest = i ∧ chan c ≠ []

theorem Proc.next_by {n i : Nat} {x x' : σ} {chan : Channel → List μ} {p p' : Proc σ μ ε α}
    {e : Effect μ} (h : p.next n i x (fun c => (chan c).head?) = some (p', x', e)) :
    e.By i chan := by
  -- a message at the head is a channel that is not empty
  have htake : ∀ {c : Channel} {k : μ → Proc σ μ ε α}, c.dest = i →
      (chan c).head?.map (fun m => (k m, x, Effect.take c)) = some (p', x', e) →
      e.By i chan := by
    intro c k hc h
    obtain ⟨m, hm, h⟩ := Option.map_eq_some_iff.1 h
    cases h
    refine ⟨hc, ?_⟩
    intro hnil
    rw [hnil] at hm
    cases hm
  cases p with
  | done a => cases h
  | fault e => cases h
  | load k =>
    cases h
    trivial
  | store y k =>
    cases h
    trivial
  | send dest m k =>
    cases h
    intro c hc
    rw [eq_of_beq hc]
  | recv source k => exact htake rfl h
  | bcast root m k =>
    rw [next] at h
    by_cases hi : i = root
    · rw [if_pos hi] at h
      cases h
      intro c hc
      simp only [toOthers, Bool.and_eq_true, beq_iff_eq] at hc
      exact hc.1.1.2
    · rw [if_neg hi] at h
      exact htake rfl h

/-- A step that is possible stays so when messages arrive. -/
theorem Proc.next_mono {n i : Nat} {x : σ} {head head' : Channel → Option μ} {p : Proc σ μ ε α}
    {r : Proc σ μ ε α × σ × Effect μ}
    (hhead : ∀ c m, c.dest = i → head c = some m → head' c = some m)
    (h : p.next n i x head = some r) : p.next n i x head' = some r := by
  cases p with
  | done a => exact h
  | fault e => exact h
  | load k => exact h
  | store y k => exact h
  | send dest m k => exact h
  | recv source k =>
    obtain ⟨m, hm, h⟩ := Option.map_eq_some_iff.1 h
    exact Option.map_eq_some_iff.2 ⟨m, hhead _ m rfl hm, h⟩
  | bcast root m k =>
    rw [next] at h ⊢
    by_cases hi : i = root
    · rw [if_pos hi] at h ⊢
      exact h
    · rw [if_neg hi] at h ⊢
      obtain ⟨m, hm, h⟩ := Option.map_eq_some_iff.1 h
      exact Option.map_eq_some_iff.2 ⟨m, hhead _ m rfl hm, h⟩

namespace Effect

variable {i j : Nat} {chan : Channel → List μ} {e e' : Effect μ}

/-- What is at the head for one process stays there when another takes a step. -/
theorem By.head (h : e.By i chan) (hij : i ≠ j) {c : Channel} {m : μ} (hc : c.dest = j)
    (hm : (chan c).head? = some m) : (e.apply chan c).head? = some m := by
  cases e with
  | silent => exact hm
  | push m' cs =>
    show (if cs c then chan c ++ [m'] else chan c).head? = some m
    split
    · rw [List.head?_append, hm]
      rfl
    · exact hm
  | take c' =>
    have hne : c ≠ c' := by
      rintro rfl
      exact hij (h.1.symm.trans hc)
    show (if c = c' then (chan c).tail else chan c).head? = some m
    rw [if_neg hne, hm]

theorem By.comm (h : e.By i chan) (h' : e'.By j chan) (hij : i ≠ j) :
    e'.apply (e.apply chan) = e.apply (e'.apply chan) := by
  funext c
  cases e with
  | silent => rfl
  | push m cs =>
    cases e' with
    | silent => rfl
    | push m' cs' =>
      -- no channel has two sources
      have hc : ¬(cs c = true ∧ cs' c = true) := fun hc => hij ((h c hc.1).symm.trans (h' c hc.2))
      simp only [apply]
      grind
    | take c' =>
      have hne := h'.2
      simp only [apply]
      split
      · next heq =>
        subst heq
        split
        · rw [List.tail_append_of_ne_nil hne]
        · rfl
      · rfl
  | take c' =>
    cases e' with
    | silent => rfl
    | push m cs =>
      have hne := h.2
      simp only [apply]
      split
      · next hcs =>
        split
        · next heq =>
          subst heq
          rw [List.tail_append_of_ne_nil hne]
        · rfl
      · rfl
    | take c'' =>
      have hne : c' ≠ c'' := by
        rintro rfl
        exact hij (h.1.symm.trans h'.1)
      simp only [apply]
      grind

end Effect

namespace Net

variable {n : Nat}

theorem commutes : Commutes (step (n := n) (σ := σ) (μ := μ) (ε := ε) (α := α)) := by
  intro s i j t u hij ht hu
  obtain ⟨p, x, e, hp, rfl⟩ := step_eq_some.1 ht
  obtain ⟨q, y, f, hq, rfl⟩ := step_eq_some.1 hu
  have hne : i.val ≠ j.val := fun h => hij (Fin.ext h)
  have he : e.By i s.chan := Proc.next_by hp
  have hf : f.By j s.chan := Proc.next_by hq
  refine ⟨⟨update (update s.proc i p) j q, update (update s.mem i x) j y, f.apply (e.apply s.chan)⟩,
    step_eq_some.2 ⟨q, y, f, ?_, rfl⟩, step_eq_some.2 ⟨p, x, e, ?_, ?_⟩⟩
  · simp only [update_of_ne (Ne.symm hij)]
    exact Proc.next_mono (fun c m hc => he.head hne hc) hq
  · simp only [update_of_ne hij]
    exact Proc.next_mono (fun c m hc => hf.head (Ne.symm hne) hc) hp
  · rw [he.comm hf hne, update_comm (Ne.symm hij), update_comm (Ne.symm hij)]

/-! ## What holds of the memories -/

theorem step_keeps {P : Fin n → σ → Prop} {Q : Fin n → α → Prop} {s s' : Net n σ μ ε α} {i : Fin n}
    (h : ∀ j, (s.proc j).Keeps (P j) (Q j) ∧ P j (s.mem j)) (hs : s.step i = some s') (j : Fin n) :
    (s'.proc j).Keeps (P j) (Q j) ∧ P j (s'.mem j) := by
  obtain ⟨p, x, e, hp, rfl⟩ := step_eq_some.1 hs
  by_cases hj : j = i
  · subst hj
    obtain ⟨hkeeps, hmem⟩ := h j
    simp only [update_self]
    -- what is left of the program, and the memory, after each kind of step
    cases hproc : s.proc j with
    | done a =>
      rw [hproc] at hp
      cases hp
    | fault e =>
      rw [hproc] at hp
      cases hp
    | load k =>
      rw [hproc] at hp hkeeps
      cases hp
      exact ⟨hkeeps _ hmem, hmem⟩
    | store y k =>
      rw [hproc] at hp hkeeps
      cases hp
      exact ⟨hkeeps.2, hkeeps.1⟩
    | send dest m k =>
      rw [hproc] at hp hkeeps
      cases hp
      exact ⟨hkeeps, hmem⟩
    | recv source k =>
      rw [hproc] at hp hkeeps
      obtain ⟨m, -, hp⟩ := Option.map_eq_some_iff.1 hp
      cases hp
      exact ⟨hkeeps m, hmem⟩
    | bcast root m k =>
      rw [hproc, Proc.next] at hp
      rw [hproc] at hkeeps
      split at hp
      · cases hp
        exact ⟨hkeeps m, hmem⟩
      · obtain ⟨m', -, hp⟩ := Option.map_eq_some_iff.1 hp
        cases hp
        exact ⟨hkeeps m', hmem⟩
  · simp only [update_of_ne hj]
    exact h j

theorem reachable_keeps {P : Fin n → σ → Prop} {Q : Fin n → α → Prop} {s t : Net n σ μ ε α}
    (h : ∀ j, (s.proc j).Keeps (P j) (Q j) ∧ P j (s.mem j)) (hst : Reachable step s t) (j : Fin n) :
    P j (t.mem j) :=
  ((hst.invariant (I := fun t => ∀ j, (t.proc j).Keeps (P j) (Q j) ∧ P j (t.mem j)) h
    fun _ _ _ ht hs => step_keeps ht hs) j).2

/-! ## A process that has returned stays as it is -/

theorem step_done {s s' : Net n σ μ ε α} {i j : Fin n} {a : α} (hj : s.proc j = .done a)
    (h : s.step i = some s') : s'.proc j = .done a ∧ s'.mem j = s.mem j := by
  obtain ⟨p, x, e, hp, rfl⟩ := step_eq_some.1 h
  have hij : j ≠ i := by
    rintro rfl
    rw [hj] at hp
    cases hp
  exact ⟨(update_of_ne hij _ _).trans hj, update_of_ne hij _ _⟩

theorem reachable_done {s t : Net n σ μ ε α} {j : Fin n} {a : α} (h : Reachable step s t)
    (hj : s.proc j = .done a) : t.proc j = .done a ∧ t.mem j = s.mem j := by
  refine h.invariant (I := fun t => t.proc j = .done a ∧ t.mem j = s.mem j) ⟨hj, rfl⟩ ?_
  rintro t i t' ⟨hj', hmem⟩ ht
  obtain ⟨hproc, hmem'⟩ := step_done hj' ht
  exact ⟨hproc, hmem'.trans hmem⟩

theorem halted_of_returned {s : Net n σ μ ε α} (h : ∀ i, s.Returned i) : Halted step s := by
  intro i
  obtain ⟨a, ha⟩ := h i
  unfold step
  rw [ha]
  rfl

/-- **One run stands for all**: what a process returns, and leaves in its memory, is what it
returns in the run that ends in `t`. -/
theorem done_unique {s t u : Net n σ μ ε α} (ht : Halted step t) (hst : Reachable step s t)
    (hsu : Reachable step s u) {i : Fin n} {a : α} (hi : u.proc i = .done a) :
    t.proc i = .done a ∧ t.mem i = u.mem i :=
  reachable_done (commutes.completes ht hst hsu) hi

/-- Where one run ends with all processes returned, none gets stuck. -/
theorem live_of_returned {s t u : Net n σ μ ε α} (ht : ∀ i, t.Returned i)
    (hst : Reachable step s t) (hsu : Reachable step s u) : u.Live := by
  rcases commutes.progress (halted_of_returned ht) hst hsu with rfl | ⟨i, s', h⟩
  · exact .inl ht
  · exact .inr ⟨i, s', h⟩

end Net

end Processes
