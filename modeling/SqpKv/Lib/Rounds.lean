import SqpKv.Lib.Processes
import Mathlib.Data.List.Nodup
import Mathlib.Data.List.Perm.Subperm
import Mathlib.Data.List.Range

/-!
# Rounds

In a round one process, the root, receives from the others and broadcasts what
came out; the others send to the root and wait.  `Sends` is what a process does
without any other, `Takes` what the root does with the messages that are there.
Two things can happen:

    the root takes all messages and comes to its broadcast   →   the next round starts  (round)
    the root comes to a receive of which there is no message →   nobody ever returns    (stuck)

Between rounds no message is under way.
-/

namespace Processes

open Function Machine

variable {σ μ ε α β : Type}

/-- Loads, stores and sends to `root`. -/
inductive Sends (root : Nat) : Proc σ μ ε α → σ → List μ → Proc σ μ ε α → σ → Prop
  | refl (p : Proc σ μ ε α) (x : σ) : Sends root p x [] p x
  | load {k : σ → Proc σ μ ε α} {x x' : σ} {ms : List μ} {p' : Proc σ μ ε α} :
      Sends root (k x) x ms p' x' → Sends root (.load k) x ms p' x'
  | store {k : Proc σ μ ε α} {x y x' : σ} {ms : List μ} {p' : Proc σ μ ε α} :
      Sends root k y ms p' x' → Sends root (.store y k) x ms p' x'
  | send {k : Proc σ μ ε α} {x x' : σ} {m : μ} {ms : List μ} {p' : Proc σ μ ε α} :
      Sends root k x ms p' x' → Sends root (.send root m k) x (m :: ms) p' x'

/-- Loads, stores and receives of messages that are there. -/
inductive Takes : (Nat → List μ) → Proc σ μ ε α → σ → (Nat → List μ) → Proc σ μ ε α → σ → Prop
  | refl (inbox : Nat → List μ) (p : Proc σ μ ε α) (x : σ) : Takes inbox p x inbox p x
  | load {inbox inbox' : Nat → List μ} {k : σ → Proc σ μ ε α} {x x' : σ} {p' : Proc σ μ ε α} :
      Takes inbox (k x) x inbox' p' x' → Takes inbox (.load k) x inbox' p' x'
  | store {inbox inbox' : Nat → List μ} {k : Proc σ μ ε α} {x y x' : σ} {p' : Proc σ μ ε α} :
      Takes inbox k y inbox' p' x' → Takes inbox (.store y k) x inbox' p' x'
  | recv {inbox inbox' : Nat → List μ} {source : Nat} {m : μ} {ms : List μ}
      {k : μ → Proc σ μ ε α} {x x' : σ} {p' : Proc σ μ ε α} :
      inbox source = m :: ms → Takes (update inbox source ms) (k m) x inbox' p' x' →
      Takes inbox (.recv source k) x inbox' p' x'

theorem Sends.bind {root : Nat} {p p' : Proc σ μ ε α} {x x' : σ} {ms : List μ}
    (h : Sends root p x ms p' x') (f : α → Proc σ μ ε β) :
    Sends root (p.bind f) x ms (p'.bind f) x' := by
  induction h with
  | refl p x => exact .refl _ _
  | load _ ih => exact .load ih
  | store _ ih => exact .store ih
  | send _ ih => exact .send ih

theorem Sends.trans {root : Nat} {p q r : Proc σ μ ε α} {x y z : σ} {ms ms' : List μ}
    (h : Sends root p x ms q y) (h' : Sends root q y ms' r z) : Sends root p x (ms ++ ms') r z := by
  induction h with
  | refl p x => exact h'
  | load _ ih => exact .load (ih h')
  | store _ ih => exact .store (ih h')
  | send _ ih => exact .send (ih h')

/-- Where nothing is sent nothing need be there. -/
theorem Sends.takes {root : Nat} {p p' : Proc σ μ ε α} {x x' : σ} (inbox : Nat → List μ)
    (h : Sends root p x [] p' x') : Takes inbox p x inbox p' x' := by
  generalize hms : ([] : List μ) = ms at h
  induction h with
  | refl p x => exact .refl _ _ _
  | load _ ih => exact .load (ih hms)
  | store _ ih => exact .store (ih hms)
  | send _ _ => cases hms

namespace Takes

theorem bind {inbox inbox' : Nat → List μ} {p p' : Proc σ μ ε α} {x x' : σ}
    (h : Takes inbox p x inbox' p' x') (f : α → Proc σ μ ε β) :
    Takes inbox (p.bind f) x inbox' (p'.bind f) x' := by
  induction h with
  | refl inbox p x => exact .refl _ _ _
  | load _ ih => exact .load ih
  | store _ ih => exact .store ih
  | recv hm _ ih => exact .recv hm ih

theorem trans {inbox inbox' inbox'' : Nat → List μ} {p q r : Proc σ μ ε α} {x y z : σ}
    (h : Takes inbox p x inbox' q y) (h' : Takes inbox' q y inbox'' r z) :
    Takes inbox p x inbox'' r z := by
  induction h with
  | refl inbox p x => exact h'
  | load _ ih => exact .load (ih h')
  | store _ ih => exact .store (ih h')
  | recv hm _ ih => exact .recv hm (ih h')

/-- A loop that takes in every iteration what one source has sent. -/
theorem foldlM {ι : Type} {f : β → ι → Proc σ μ ε β} {g : β → ι → β} {x : σ}
    (source : ι → Nat) (inbox : Nat → List μ) (l : List ι) (b : β) (hnodup : (l.map source).Nodup)
    (hf : ∀ b i inbox', i ∈ l → inbox' (source i) = inbox (source i) →
      Takes inbox' (f b i) x (update inbox' (source i) []) (.done (g b i)) x) :
    Takes inbox (l.foldlM f b) x (fun s => if s ∈ l.map source then [] else inbox s)
      (.done (l.foldl g b)) x := by
  suffices hloop : ∀ (inbox' : Nat → List μ) (b : β),
      (∀ i ∈ l, inbox' (source i) = inbox (source i)) →
      Takes inbox' (l.foldlM f b) x (fun s => if s ∈ l.map source then [] else inbox' s)
        (.done (l.foldl g b)) x from hloop inbox b fun _ _ => rfl
  clear b
  induction l with
  | nil =>
    intro inbox' b _
    simp only [List.map_nil, List.not_mem_nil, if_false]
    exact .refl _ _ _
  | cons i l ih =>
    intro inbox' b hin
    rw [List.map_cons, List.nodup_cons] at hnodup
    have hi := hf b i inbox' List.mem_cons_self (hin i List.mem_cons_self)
    have hrest := ih hnodup.2 (fun b j inbox'' hj => hf b j inbox'' (List.mem_cons_of_mem i hj))
      (update inbox' (source i) []) (g b i) fun j hj => by
        have hne : source j ≠ source i := fun heq => hnodup.1 (heq ▸ List.mem_map_of_mem hj)
        rw [update_of_ne hne, hin j (List.mem_cons_of_mem i hj)]
    have hend : (fun s => if s ∈ l.map source then [] else update inbox' (source i) [] s) =
        fun s => if s ∈ (i :: l).map source then [] else inbox' s := by
      funext s
      by_cases hs : s = source i
      · subst hs
        simp
      · simp [hs]
    rw [hend] at hrest
    exact (hi.bind fun b => l.foldlM f b).trans hrest

/-- The loop comes to a source that has sent no more. -/
theorem foldlM_stuck {ι : Type} {f : β → ι → Proc σ μ ε β} {g : β → ι → β} {x : σ}
    (source : ι → Nat) (inbox : Nat → List μ) {pre : List ι} {i : ι} (post : List ι) (b : β)
    (hnodup : (pre.map source).Nodup)
    (hf : ∀ b i inbox', i ∈ pre → inbox' (source i) = inbox (source i) →
      Takes inbox' (f b i) x (update inbox' (source i) []) (.done (g b i)) x)
    (hi : ∀ b, ∃ k, f b i = .recv (source i) k)
    (hempty : source i ∈ pre.map source ∨ inbox (source i) = []) :
    ∃ inbox' k, Takes inbox ((pre ++ i :: post).foldlM f b) x inbox' (.recv (source i) k) x ∧
      inbox' (source i) = [] := by
  have hpre := (foldlM source inbox pre b hnodup hf).bind fun b => (i :: post).foldlM f b
  obtain ⟨k, hk⟩ := hi (pre.foldl g b)
  refine ⟨fun s => if s ∈ pre.map source then [] else inbox s,
    fun m => (k m).bind fun b => post.foldlM f b, ?_, ?_⟩
  · rw [List.foldlM_append]
    refine hpre.trans ?_
    show Takes _ ((f (pre.foldl g b) i).bind fun b => post.foldlM f b) _ _ _ _
    rw [hk]
    exact .refl _ _ _
  · show (if source i ∈ pre.map source then [] else inbox (source i)) = []
    rcases hempty with h | h
    · rw [if_pos h]
    · rw [h, ite_self]

end Takes

namespace Net

variable {n : Nat}

/-! ## All processes make a move -/

/-- The first `k` have made it. -/
def mix {γ : Type} (k : Nat) (a b : Fin n → γ) (i : Fin n) : γ := if i.val < k then b i else a i

theorem mix_zero {γ : Type} (a b : Fin n → γ) : mix 0 a b = a := rfl

theorem mix_all {γ : Type} (a b : Fin n → γ) : mix n a b = b := by
  funext i
  exact if_pos i.isLt

theorem mix_self {γ : Type} (a b : Fin n → γ) (i : Fin n) : mix i.val a b i = a i :=
  if_neg (Nat.lt_irrefl _)

theorem mix_succ {γ : Type} (a b : Fin n → γ) (i : Fin n) :
    mix (i.val + 1) a b = update (mix i.val a b) i (b i) := by
  funext j
  by_cases hj : j = i
  · subst hj
    rw [update_self]
    exact if_pos (Nat.lt_succ_self _)
  · have hne : j.val ≠ i.val := fun h => hj (Fin.ext h)
    rw [update_of_ne hj]
    unfold mix
    by_cases hlt : j.val < i.val
    · rw [if_pos hlt, if_pos (by omega)]
    · rw [if_neg hlt, if_neg (by omega)]

theorem sweep {S : Nat → Net n σ μ ε α} (h : ∀ i : Fin n, Reachable step (S i) (S (i + 1))) :
    Reachable step (S 0) (S n) := by
  suffices hk : ∀ k ≤ n, Reachable step (S 0) (S k) from hk n (Nat.le_refl n)
  intro k hk
  induction k with
  | zero => exact .init
  | succ k ih => exact (ih (by omega)).trans (h ⟨k, hk⟩)

/-! ## The messages to the root -/

/-- One queue for every process. -/
def queues (ms : Fin n → List μ) (s : Nat) : List μ := if h : s < n then ms ⟨s, h⟩ else []

theorem queues_val (ms : Fin n → List μ) (i : Fin n) : queues ms i = ms i := dif_pos i.isLt

theorem queues_update (ms : Fin n → List μ) (i : Fin n) (l : List μ) :
    queues (update ms i l) = update (queues ms) i l := by
  funext s
  by_cases hs : s = i.val
  · subst hs
    rw [queues_val, update_self, update_self]
  · rw [update_of_ne hs]
    unfold queues
    split
    · next h => rw [update_of_ne (fun heq => hs (congrArg Fin.val heq))]
    · rfl

theorem queues_nil : queues (fun _ : Fin n => ([] : List μ)) = fun _ => [] := by
  funext s
  unfold queues
  split <;> rfl

/-- Each process but the root is once among the sources. -/
def Covers (root : Fin n) (sources : List Nat) : Prop :=
  sources.Nodup ∧ ∀ r, r ∈ sources ↔ r ≠ root ∧ r < n

/-- When all sources have been taken from, nothing is left. -/
theorem Covers.taken {root : Fin n} {sources : List Nat} {ms : Fin n → List μ}
    (h : Covers root sources) (hms : ms root = []) :
    (fun s => if s ∈ sources then [] else queues ms s) = fun _ => [] := by
  funext s
  by_cases hs : s ∈ sources
  · rw [if_pos hs]
  · rw [if_neg hs]
    unfold queues
    split
    · next hlt =>
      have heq : (⟨s, hlt⟩ : Fin n) = root := by
        by_contra hne
        exact hs ((h.2 s).2 ⟨fun heq => hne (Fin.ext heq), hlt⟩)
      rw [heq, hms]
    · rfl

/-- The first source that has nothing to give, where there is one. -/
theorem first_spent (root : Fin n) (source : β → Nat) (l : List β) :
    ((l.map source).Nodup ∧ ∀ i ∈ l, source i ≠ root ∧ source i < n) ∨
      ∃ pre i post, l = pre ++ i :: post ∧ (pre.map source).Nodup ∧
        (∀ j ∈ pre, source j ≠ root ∧ source j < n) ∧
        (source i ∈ pre.map source ∨ ¬(source i ≠ root ∧ source i < n)) := by
  induction l using List.reverseRecOn with
  | nil => exact .inl ⟨List.nodup_nil, fun i hi => absurd hi List.not_mem_nil⟩
  | append_singleton l i ih =>
    rcases ih with ⟨hnodup, hin⟩ | ⟨pre, j, post, rfl, h⟩
    · by_cases hi : source i ∈ l.map source ∨ ¬(source i ≠ root ∧ source i < n)
      · exact .inr ⟨l, i, [], rfl, hnodup, hin, hi⟩
      · rw [not_or, not_not] at hi
        refine .inl ⟨?_, ?_⟩
        · rw [List.map_append, List.nodup_append]
          refine ⟨hnodup, List.nodup_singleton _, ?_⟩
          rintro a ha b hb rfl
          exact hi.1 (List.mem_singleton.1 hb ▸ ha)
        · intro j hj
          rcases List.mem_append.1 hj with hj | hj
          · exact hin j hj
          · rw [List.mem_singleton.1 hj]
            exact hi.2
    · exact .inr ⟨pre, j, post ++ [i], by rw [List.append_assoc, List.cons_append], h⟩

/-- As many sources as there are others, all different, are all of them. -/
theorem covers_of_nodup {root : Fin n} {sources : List Nat} (hlen : sources.length + 1 = n)
    (hnodup : sources.Nodup) (hin : ∀ r ∈ sources, r ≠ root ∧ r < n) : Covers root sources := by
  have hsub : sources ⊆ (List.range n).erase root := fun r hr =>
    (List.nodup_range.mem_erase_iff).2 ⟨(hin r hr).1, List.mem_range.2 (hin r hr).2⟩
  have hperm : sources.Perm ((List.range n).erase root) := by
    refine (List.subperm_of_subset hnodup hsub).perm_of_length_le ?_
    rw [List.length_erase_of_mem (List.mem_range.2 root.isLt), List.length_range]
    omega
  refine ⟨hnodup, fun r => ?_⟩
  rw [hperm.mem_iff, List.nodup_range.mem_erase_iff, List.mem_range]

/-- The messages under way are for the root. -/
def gathering (root : Fin n) (p : Fin n → Proc σ μ ε α) (x : Fin n → σ) (inbox : Nat → List μ) :
    Net n σ μ ε α :=
  ⟨p, x, fun c => if c.collective = false ∧ c.dest = root.val then inbox c.source else []⟩

theorem gathering_nil (root : Fin n) (p : Fin n → Proc σ μ ε α) (x : Fin n → σ) :
    gathering root p x (fun _ => []) = calm p x := by
  unfold gathering calm
  simp only [ite_self]

theorem step_gathering {root i : Fin n} {p : Fin n → Proc σ μ ε α} {x : Fin n → σ}
    {inbox inbox' : Nat → List μ} {p' : Proc σ μ ε α} {x' : σ} {e : Effect μ}
    (h : (p i).next n i (x i) (gathering root p x inbox).head = some (p', x', e))
    (he : e.apply (gathering root p x inbox).chan = (gathering root p x inbox').chan) :
    step (gathering root p x inbox) i =
      some (gathering root (update p i p') (update x i x') inbox') := by
  refine step_eq_some.2 ⟨p', x', e, h, ?_⟩
  rw [he]
  rfl

theorem reachable_load {s : Net n σ μ ε α} {i : Fin n} {k : σ → Proc σ μ ε α} {y : σ}
    (hp : s.proc i = .load k) (hy : s.mem i = y) :
    Reachable step s ⟨update s.proc i (k y), s.mem, s.chan⟩ := by
  refine Reachable.init.step i (step_eq_some.2 ⟨k y, y, .silent, ?_, ?_⟩)
  · rw [hp, hy]
    rfl
  · subst hy
    rw [update_eq_self]
    rfl

theorem reachable_store {s : Net n σ μ ε α} {i : Fin n} {k : Proc σ μ ε α} {y : σ}
    (hp : s.proc i = .store y k) :
    Reachable step s ⟨update s.proc i k, update s.mem i y, s.chan⟩ := by
  refine Reachable.init.step i (step_eq_some.2 ⟨k, y, .silent, ?_, rfl⟩)
  rw [hp]
  rfl

theorem reachable_sends {root i : Fin n} {p' : Proc σ μ ε α} {x' : σ} {ms : List μ}
    {p : Fin n → Proc σ μ ε α} {x : Fin n → σ} (inbox : Nat → List μ)
    (h : Sends root (p i) (x i) ms p' x') :
    Reachable step (gathering root p x inbox)
      (gathering root (update p i p') (update x i x') (update inbox i (inbox i ++ ms))) := by
  generalize hp : p i = pi, hx : x i = xi at h
  induction h generalizing p x inbox with
  | refl q y =>
    subst hp hx
    rw [List.append_nil, update_eq_self, update_eq_self, update_eq_self]
    exact .init
  | @load k y y' ms q _ ih =>
    have hrest := ih (p := update p i (k y)) inbox (update_self ..) hx
    rw [update_idem] at hrest
    exact (reachable_load (s := gathering root p x inbox) hp hx).trans hrest
  | @store k y z y' ms q _ ih =>
    have hrest := ih (p := update p i k) (x := update x i z) inbox (update_self ..) (update_self ..)
    rw [update_idem, update_idem] at hrest
    exact (reachable_store (s := gathering root p x inbox) hp).trans hrest
  | @send k y y' m ms q _ ih =>
    have hchan : (Effect.push m fun c => c == ⟨false, i, root⟩).apply
        (gathering root p x inbox).chan =
        (gathering root p x (update inbox i (inbox i ++ [m]))).chan := by
      funext c
      obtain ⟨collective, source, dest⟩ := c
      simp only [Effect.apply, gathering, beq_iff_eq, Channel.mk.injEq]
      by_cases hc : collective = false ∧ dest = root.val
      · by_cases hs : source = i.val
        · subst hs
          simp [hc]
        · simp [hc, hs]
      · have hc' : ¬(collective = false ∧ source = i.val ∧ dest = root.val) :=
          fun h => hc ⟨h.1, h.2.2⟩
        rw [if_neg hc', if_neg hc, if_neg hc]
    have hstep : step (gathering root p x inbox) i =
        some (gathering root (update p i k) (update x i y) (update inbox i (inbox i ++ [m]))) :=
      step_gathering (by rw [hp, hx]; rfl) hchan
    have hrest := ih (p := update p i k) (x := update x i y) (update inbox i (inbox i ++ [m]))
      (update_self ..) (update_self ..)
    rw [update_idem, update_idem, update_idem, update_self, List.append_assoc] at hrest
    exact (Reachable.init.step i hstep).trans hrest

theorem reachable_takes {root : Fin n} {inbox inbox' : Nat → List μ} {p' : Proc σ μ ε α} {x' : σ}
    (p : Fin n → Proc σ μ ε α) (x : Fin n → σ)
    (h : Takes inbox (p root) (x root) inbox' p' x') :
    Reachable step (gathering root p x inbox)
      (gathering root (update p root p') (update x root x') inbox') := by
  generalize hp : p root = pr, hx : x root = xr at h
  induction h generalizing p x with
  | refl inbox q y =>
    subst hp hx
    rw [update_eq_self, update_eq_self]
    exact .init
  | @load inbox inbox' k y y' q _ ih =>
    have hrest := ih (update p root (k y)) x (update_self ..) hx
    rw [update_idem] at hrest
    exact (reachable_load (s := gathering root p x inbox) hp hx).trans hrest
  | @store inbox inbox' k y z y' q _ ih =>
    have hrest := ih (update p root k) (update x root z) (update_self ..) (update_self ..)
    rw [update_idem, update_idem] at hrest
    exact (reachable_store (s := gathering root p x inbox) hp).trans hrest
  | @recv inbox inbox' source m ms k y y' q hm _ ih =>
    have hhead : (gathering root p x inbox).head ⟨false, source, root⟩ = some m := by
      simp [head, gathering, hm]
    have hchan : (Effect.take ⟨false, source, root⟩).apply (gathering root p x inbox).chan =
        (gathering root p x (update inbox source ms)).chan := by
      funext c
      obtain ⟨collective, source', dest⟩ := c
      simp only [Effect.apply, gathering, Channel.mk.injEq]
      by_cases hc : collective = false ∧ dest = root.val
      · by_cases hs : source' = source
        · subst hs
          simp [hc, hm]
        · simp [hc, hs]
      · have hc' : ¬(collective = false ∧ source' = source ∧ dest = root.val) :=
          fun h => hc ⟨h.1, h.2.2⟩
        rw [if_neg hc', if_neg hc, if_neg hc]
    have hstep : step (gathering root p x inbox) root =
        some (gathering root (update p root (k m)) (update x root y) (update inbox source ms)) := by
      refine step_gathering ?_ hchan
      rw [hp, hx, Proc.next, hhead]
      rfl
    have hrest := ih (update p root (k m)) (update x root y) (update_self ..) (update_self ..)
    rw [update_idem, update_idem] at hrest
    exact (Reachable.init.step root hstep).trans hrest

/-! ## The broadcast of the root -/

/-- The messages under way are broadcast by the root. -/
def spreading (root : Fin n) (p : Fin n → Proc σ μ ε α) (x : Fin n → σ) (waiting : Fin n → List μ) :
    Net n σ μ ε α :=
  ⟨p, x, fun c => if c.collective ∧ c.source = root.val then queues waiting c.dest else []⟩

theorem spreading_nil (root : Fin n) (p : Fin n → Proc σ μ ε α) (x : Fin n → σ) :
    spreading root p x (fun _ => []) = calm p x := by
  unfold spreading calm
  simp only [queues_nil, ite_self]

/-- What the others find when the root has broadcast `m`. -/
def broadcast (root : Fin n) (m : μ) (i : Fin n) : List μ := if i = root then [] else [m]

theorem reachable_bcast {root : Fin n} {p : Fin n → Proc σ μ ε α} {x : Fin n → σ} {m : μ}
    {k : μ → Proc σ μ ε α} (hp : p root = .bcast root m k) :
    Reachable step (calm p x) (spreading root (update p root (k m)) x (broadcast root m)) := by
  refine Reachable.init.step root
    (step_eq_some.2 ⟨k m, x root, .push m (toOthers n root), ?_, ?_⟩)
  · show (p root).next n root (x root) _ = _
    rw [hp, Proc.next, if_pos rfl]
  · have hchan : (Effect.push m (toOthers n root)).apply (calm p x).chan =
        (spreading root (update p root (k m)) x (broadcast root m)).chan := by
      funext c
      obtain ⟨collective, source, dest⟩ := c
      by_cases hc : collective = true ∧ source = root.val
      · by_cases hd : dest < n
        · by_cases hr : dest = root.val
          · subst hr
            simp [Effect.apply, toOthers, calm, spreading, queues, broadcast, hc]
          · have hr' : (⟨dest, hd⟩ : Fin n) ≠ root := fun h => hr (congrArg Fin.val h)
            simp [Effect.apply, toOthers, calm, spreading, queues, broadcast, hc, hd, hr, hr']
        · simp [Effect.apply, toOthers, calm, spreading, queues, hc, hd]
      · have hto : ¬ toOthers n root ⟨collective, source, dest⟩ = true := by
          intro h
          simp only [toOthers, Bool.and_eq_true, beq_iff_eq] at h
          exact hc h.1.1
        show (if toOthers n root _ = true then _ else []) = if _ ∧ _ then _ else []
        rw [if_neg hto, if_neg hc]
    rw [hchan]
    show spreading root _ x _ = ⟨_, update x root (x root), _⟩
    rw [update_eq_self]
    rfl

theorem reachable_await {root i : Fin n} {p : Fin n → Proc σ μ ε α} {x : Fin n → σ}
    {waiting : Fin n → List μ} {b m : μ} {k : μ → Proc σ μ ε α} (hi : i ≠ root)
    (hp : p i = .bcast root b k) (hm : waiting i = [m]) :
    Reachable step (spreading root p x waiting)
      (spreading root (update p i (k m)) x (update waiting i [])) := by
  have hne : i.val ≠ root.val := fun h => hi (Fin.ext h)
  refine Reachable.init.step i
    (step_eq_some.2 ⟨k m, x i, .take ⟨true, root, i⟩, ?_, ?_⟩)
  · show (p i).next n i (x i) _ = _
    rw [hp, Proc.next, if_neg hne]
    simp [head, spreading, queues_val, hm]
  · have hchan : (Effect.take ⟨true, root, i⟩).apply (spreading root p x waiting).chan =
        (spreading root p x (update waiting i [])).chan := by
      funext c
      obtain ⟨collective, source, dest⟩ := c
      simp only [Effect.apply, spreading, Channel.mk.injEq, queues_update]
      by_cases hc : collective = true ∧ source = root.val
      · by_cases hd : dest = i.val
        · subst hd
          simp [hc, queues_val, hm]
        · simp [hc, hd]
      · have hc' : ¬(collective = true ∧ source = root.val ∧ dest = i.val) :=
          fun h => hc ⟨h.1, h.2.1⟩
        rw [if_neg hc', if_neg hc, if_neg hc]
    rw [hchan]
    show spreading root _ x _ = ⟨_, update x i (x i), _⟩
    rw [update_eq_self]
    rfl

/-! ## Whole rounds -/

section

variable (root : Fin n) (ms : Fin n → List μ) {p : Fin n → Proc σ μ ε α} {x y : Fin n → σ}

/-- The others have sent their messages and the root has not moved. -/
theorem reachable_gathering {q : Fin n → Proc σ μ ε α}
    (h : ∀ i, Sends root (p i) (x i) (ms i) (q i) (y i)) :
    Reachable step (calm p x) (gathering root q y (queues ms)) := by
  let S : Nat → Net n σ μ ε α := fun k =>
    gathering root (mix k p q) (mix k x y) (queues (mix k (fun _ => []) ms))
  have hS : Reachable step (S 0) (S n) := by
    refine sweep fun i => ?_
    have hi : Sends root (mix i.val p q i) (mix i.val x y i) (ms i) (q i) (y i) := by
      rw [mix_self, mix_self]
      exact h i
    have hrest := reachable_sends (queues (mix i.val (fun _ => []) ms)) hi
    rw [queues_val, mix_self, List.nil_append, ← queues_update, ← mix_succ, ← mix_succ,
      ← mix_succ] at hrest
    exact hrest
  have h0 : S 0 = calm p x := by
    show gathering root (mix 0 p q) (mix 0 x y) (queues (mix 0 (fun _ => []) ms)) = _
    rw [mix_zero, mix_zero, mix_zero, queues_nil, gathering_nil]
  have hn : S n = gathering root q y (queues ms) := by
    show gathering root (mix n p q) (mix n x y) (queues (mix n (fun _ => []) ms)) = _
    rw [mix_all, mix_all, mix_all]
  rw [h0, hn] at hS
  exact hS

/-- As `reachable_gathering`, where nothing is known of the root. -/
theorem reachable_others {q : Fin n → Proc σ μ ε α}
    (h : ∀ i ≠ root, Sends root (p i) (x i) (ms i) (q i) (y i)) (hms : ms root = []) :
    Reachable step (calm p x)
      (gathering root (update q root (p root)) (update y root (x root)) (queues ms)) := by
  refine reachable_gathering root ms fun i => ?_
  by_cases hi : i = root
  · subst hi
    rw [update_self, update_self, hms]
    exact .refl _ _
  · rw [update_of_ne hi, update_of_ne hi]
    exact h i hi

theorem reachable_broadcast {m : μ} {b : Fin n → μ} {k : Fin n → μ → Proc σ μ ε α}
    (hp : ∀ i, p i = .bcast root (b i) (k i)) (hm : b root = m) :
    Reachable step (calm p x) (calm (fun i => k i m) x) := by
  have hroot : p root = .bcast root m (k root) := by rw [hp root, hm]
  refine (reachable_bcast hroot).trans ?_
  let S : Nat → Net n σ μ ε α := fun j =>
    spreading root (mix j (update p root (k root m)) fun i => k i m) x
      (mix j (broadcast root m) fun _ => [])
  have hS : Reachable step (S 0) (S n) := by
    refine sweep fun i => ?_
    show Reachable step (spreading root (mix i.val _ _) x (mix i.val _ _))
      (spreading root (mix (i.val + 1) _ _) x (mix (i.val + 1) _ _))
    rw [mix_succ, mix_succ]
    by_cases hi : i = root
    · -- the root has nothing to wait for
      have hself : ∀ {γ : Type} (f : Fin n → γ) (v : γ), f i = v → update f i v = f := by
        rintro γ f _ rfl
        exact update_eq_self i f
      rw [hself _ _ (by rw [mix_self, hi, update_self]), hself _ _ (by
        rw [mix_self, hi]
        exact if_pos rfl)]
      exact .init
    · refine reachable_await hi (b := b i) ?_ ?_
      · rw [mix_self, update_of_ne hi, hp i]
      · rw [mix_self]
        exact if_neg hi
  have hn : S n = calm (fun i => k i m) x := by
    show spreading root (mix n _ _) x (mix n _ _) = _
    rw [mix_all, mix_all, spreading_nil]
  rw [hn] at hS
  exact hS

/-- **A round that is completed.** -/
theorem round {m : μ} {b : Fin n → μ} {k : Fin n → μ → Proc σ μ ε α}
    (hothers : ∀ i ≠ root, Sends root (p i) (x i) (ms i) (.bcast root (b i) (k i)) (y i))
    (hms : ms root = [])
    (hroot : Takes (queues ms) (p root) (x root) (fun _ => []) (.bcast root m (k root)) (y root)) :
    Reachable step (calm p x) (calm (fun i => k i m) y) := by
  let q : Fin n → Proc σ μ ε α := fun i => .bcast root (update b root m i) (k i)
  have hgather := reachable_others root ms (q := q) (fun i hi => by
    show Sends root (p i) (x i) (ms i) (.bcast root (update b root m i) (k i)) (y i)
    rw [update_of_ne hi]
    exact hothers i hi) hms
  have hroot' := hroot
  rw [← update_self root (p root) q, ← update_self root (x root) y] at hroot'
  have htake := reachable_takes (update q root (p root)) (update y root (x root)) hroot'
  have hq : update (update q root (p root)) root (.bcast root m (k root)) = q := by
    rw [update_idem]
    have : q root = .bcast root m (k root) := by
      show Proc.bcast root (update b root m root) (k root) = _
      rw [update_self]
    rw [← this, update_eq_self]
  rw [hq, update_idem, update_eq_self, gathering_nil] at htake
  exact (hgather.trans htake).trans (reachable_broadcast root (fun i => rfl) (update_self ..))

/-- **A round in which the root waits for ever**: so do the others. -/
theorem stuck {b : Fin n → μ} {k : Fin n → μ → Proc σ μ ε α} {source : Nat}
    {k' : μ → Proc σ μ ε α} {inbox : Nat → List μ}
    (hothers : ∀ i ≠ root, Sends root (p i) (x i) (ms i) (.bcast root (b i) (k i)) (y i))
    (hms : ms root = [])
    (hroot : Takes (queues ms) (p root) (x root) inbox (.recv source k') (y root))
    (hempty : inbox source = []) :
    ∃ t, Reachable step (calm p x) t ∧ Halted step t ∧ ∀ i, ¬ t.Returned i := by
  let q : Fin n → Proc σ μ ε α := fun i => .bcast root (b i) (k i)
  have hgather := reachable_others root ms (q := q) hothers hms
  have hroot' := hroot
  rw [← update_self root (p root) q, ← update_self root (x root) y] at hroot'
  have htake := reachable_takes (update q root (p root)) (update y root (x root)) hroot'
  rw [update_idem, update_idem, update_eq_self] at htake
  have hproc : ∀ i, (∃ s k, update q root (.recv source k') i = .recv s k) ∨
      ∃ r b k, update q root (.recv source k') i = .bcast r b k := by
    intro i
    by_cases hi : i = root
    · subst hi
      exact .inl ⟨source, k', update_self ..⟩
    · exact .inr ⟨root, b i, k i, update_of_ne hi _ _⟩
  refine ⟨_, hgather.trans htake, ?_, ?_⟩
  · intro i
    have hnext : (update q root (.recv source k') i).next n i (y i)
        (gathering root (update q root (.recv source k')) y inbox).head = none := by
      by_cases hi : i = root
      · subst hi
        rw [update_self, Proc.next]
        simp [head, gathering, hempty]
      · have hne : i.val ≠ root.val := fun h => hi (Fin.ext h)
        rw [update_of_ne hi]
        show (Proc.bcast root.val (b i) (k i)).next n i (y i) _ = none
        rw [Proc.next, if_neg hne]
        simp [head, gathering]
    show ((update q root (.recv source k') i).next n i (y i)
      (gathering root (update q root (.recv source k')) y inbox).head).map _ = none
    rw [hnext]
    rfl
  · rintro i ⟨a, ha⟩
    rcases hproc i with ⟨s, k, h⟩ | ⟨r, b, k, h⟩
    · cases h.symm.trans ha
    · cases h.symm.trans ha

end

end Net

end Processes
