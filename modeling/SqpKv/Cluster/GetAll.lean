import SqpKv.Cluster.Steps

/-!
# GetAll through the proxy while others write

The shards are scanned at different moments, so what a GetAll returns is no
state the stores ever had together.  For one key it is right all the same: the
key lives on one shard (`Placed`), whose scan is complete (`collect_seek`), so
the key is counted once if its shard has it at the moment of the scan and not
at all if it has not (`getAll_during`).
-/

namespace SqpKv

open Wire Machine

theorem count_scan (db : Store) {keyPrefix key : Bytes} (h : keyPrefix <+: key) :
    (collect keyPrefix (seek db keyPrefix)).count key = if key ∈ db then 1 else 0 := by
  by_cases hmem : key ∈ db
  · rw [if_pos hmem]
    exact List.count_eq_one_of_mem (nodup_scan db keyPrefix) (mem_scan.2 ⟨hmem, h⟩)
  · rw [if_neg hmem]
    exact List.count_eq_zero.2 fun hk => hmem (mem_scan.1 hk).1

namespace Cluster

variable {Cl : Type} {n : Nat} {notFound : Bytes} {s s' : Cluster Cl n}

/-- Clients' keys are on the shards they are routed to. -/
def Placed (db : Fin n → Store) : Prop :=
  ∀ key i j, route n key = some i → key ∈ db j → j = i

/-- Every request of every session is in one place, every key on its shard. -/
structure Sound (s : Cluster Cl n) : Prop where
  placed : Placed s.db
  shape : ∀ cl, ∃ st, (s.session cl).Shape st

/-- A worker puts only keys that were routed to its shard. -/
theorem Sound.exec (h : Sound s) {cl : Cl} {i : Fin n} {db : Store} {t : Session n}
    (hs : (s.session cl).workerExec notFound i (s.db i) = some (db, t)) :
    Placed (Function.update s.db i db) ∧ ∃ st, t.Shape st := by
  obtain ⟨st, hshape⟩ := h.shape cl
  obtain ⟨-, ⟨c, key, -, hc, hroute, rfl, hshape'⟩ | ⟨-, rfl, hshape'⟩⟩ := hshape.workerExec hs
  · refine ⟨?_, _, hshape'⟩
    intro key' i' j hroute' hmem
    by_cases hj : j = i
    · subst hj
      rw [Function.update_self] at hmem
      rcases KvWorker.mem_handle hmem with hold | ⟨value, rfl⟩
      · exact h.placed key' i' j hroute' hold
      · cases hc
        rw [hroute] at hroute'
        exact Option.some.inj hroute'
    · rw [Function.update_of_ne hj] at hmem
      exact h.placed key' i' j hroute' hmem
  · rw [Function.update_eq_self]
    exact ⟨h.placed, _, hshape'⟩

theorem Sound.init {db : Fin n → Store} (hdb : Placed db) : Sound (init db : Cluster Cl n) :=
  ⟨hdb, fun _ => ⟨_, Session.init_shape⟩⟩

/-! ## From reading a GetAll to answering it -/

section

variable (key : Bytes) (home : Fin n) (v : Nat)

/-- How often `key` is in the answer of shard `j`. -/
def CountsIn (j : Fin n) (keys : List Bytes) : Prop := keys.count key = if j = home then v else 0

/-- How often it is in the keys of the first `next` shards. -/
def CountsUpTo (next : Nat) (keys : List Bytes) : Prop :=
  keys.count key = if home.val < next then v else 0

theorem joins_counts : Session.Joins (CountsIn key home v) (CountsUpTo key home v) where
  nil := (if_neg (Nat.not_lt_zero _)).symm
  append j keys more hkeys hmore := by
    unfold CountsIn at hmore
    unfold CountsUpTo at hkeys ⊢
    rw [List.count_append, hkeys, hmore]
    by_cases heq : j.val = home.val
    · rw [if_neg (by omega), if_pos (Fin.ext heq), if_pos (by omega), Nat.zero_add]
    · rw [if_neg (fun h => heq (congrArg Fin.val h)), Nat.add_zero]
      by_cases hlt : home.val < j.val
      · rw [if_pos hlt, if_pos (by omega)]
      · rw [if_neg hlt, if_neg (by omega)]

end

/-- The call number `call` of the session, if it is still in it, is the GetAll of `keyPrefix`, with
`key` counted `v` times on shard `home`. -/
structure Window (t : Session n) (call : Nat) (keyPrefix key : Bytes) (home : Fin n) (v : Nat) :
    Prop where
  le : call ≤ t.calls
  current : t.calls = call → t.Shape .scanning ∧ t.pending = some (.getAll keyPrefix) ∧
    t.Gathers (CountsIn key home v) (CountsUpTo key home v)

section

variable {call : Nat} {keyPrefix key : Bytes} {home : Fin n} {v : Nat} {t t' : Session n}

theorem Window.sessionStep (h : Window t call keyPrefix key home v) {cl : Cl}
    {E : List (CallEvent Cl)} (hs : SessionStep cl t t' E) (hshape : ∃ st, t.Shape st) :
    Window t' call keyPrefix key home v := by
  have hle := hs.calls_le hshape
  refine ⟨Nat.le_trans h.le hle, ?_⟩
  intro hcall
  obtain ⟨hscan, hp, hg⟩ := h.current (Nat.le_antisymm (hcall ▸ hle) h.le)
  rcases hs.gathers (joins_counts key home v) hscan hg with ⟨-, hscan', hg', hp'⟩ | ⟨hcalls, -⟩
  · exact ⟨hscan', hp'.trans hp, hg'⟩
  · have hge := h.le
    omega

theorem Window.exec (h : Window t call keyPrefix key home v) (hkey : keyPrefix <+: key)
    {i : Fin n} {db db' : Store} (hdb : (if key ∈ db then 1 else 0) = if i = home then v else 0)
    (hs : t.workerExec notFound i db = some (db', t')) (hshape : ∃ st, t.Shape st) :
    Window t' call keyPrefix key home v := by
  obtain ⟨st, hst⟩ := hshape
  obtain ⟨hcalls, -⟩ := hst.workerExec hs
  refine ⟨by rw [hcalls]; exact h.le, ?_⟩
  intro hcall
  obtain ⟨hscan, hp, hg⟩ := h.current (hcalls ▸ hcall)
  obtain ⟨hg', hp'⟩ := hg.workerExec hscan hp ((count_scan db hkey).trans hdb) hs
  rcases (hscan.workerExec hs).2 with ⟨_, _, hst', -⟩ | ⟨-, -, hscan'⟩
  · cases hst'
  · exact ⟨hscan', hp'.trans hp, hg'⟩

/-- The proxy reads a GetAll. -/
def Reads (t : Session n) (keyPrefix : Bytes) : Prop :=
  t.proxy = .idle ∧ t.up.head? = some (.getAll keyPrefix)

theorem Window.start (hreads : Reads t keyPrefix) (hshape : ∃ st, t.Shape st) :
    Window t t.calls keyPrefix key home v := by
  obtain ⟨hidle, hup⟩ := hreads
  refine ⟨Nat.le_refl _, fun _ => ?_⟩
  obtain ⟨st, hshape⟩ := hshape
  cases hshape with
  | scanRequested hp hu hx hd hl =>
    rw [hu] at hup
    cases hup
    exact ⟨.scanRequested hp hu hx hd hl, hp, .of_quiet hx hd hl⟩
  | requested hc hp hu hx hd hl =>
    rw [hu] at hup
    cases hup
    cases hc
  | _ =>
    -- there is nothing to read
    rw [‹t.up = []›] at hup
    cases hup

end

/-- The key is stored. -/
def Stored (s : Cluster Cl n) (key : Bytes) : Prop := ∃ i, key ∈ s.db i

/-- What a shard has of a key says whether the key is stored, if it is the key's shard. -/
theorem Sound.has (h : Sound s) {key : Bytes} {home : Fin n} (hroute : route n key = some home)
    {v : Nat} (hv : v = 1 ∧ s.Stored key ∨ v = 0 ∧ ¬ s.Stored key) (i : Fin n) :
    (if key ∈ s.db i then 1 else 0) = if i = home then v else 0 := by
  by_cases hmem : key ∈ s.db i
  · rw [if_pos hmem, if_pos (h.placed key home i hroute hmem)]
    rcases hv with ⟨rfl, -⟩ | ⟨-, hnot⟩
    · rfl
    · exact absurd ⟨i, hmem⟩ hnot
  · rw [if_neg hmem]
    by_cases hi : i = home
    · subst hi
      rw [if_pos rfl]
      rcases hv with ⟨-, j, hj⟩ | ⟨rfl, -⟩
      · rw [h.placed key i j hroute hj] at hj
        exact absurd hj hmem
      · rfl
    · rw [if_neg hi]

section Steps

variable [DecidableEq Cl]

theorem Sound.step (h : Sound s) {a : Action Cl n} (hs : step notFound s a = some s') :
    Sound s' := by
  rcases step_cases hs with ⟨cl, t, E, ht, rfl⟩ | ⟨cl, i, db, t, ht, rfl⟩
  · exact ⟨h.placed, forall_session (P := fun _ t => ∃ st, Session.Shape t st) h.shape
      (ht.shape (h.shape cl))⟩
  · obtain ⟨hplaced, hshape⟩ := h.exec ht
    exact ⟨hplaced, forall_session (P := fun _ t => ∃ st, Session.Shape t st) h.shape hshape⟩

theorem Sound.reachable {db : Fin n → Store} (hdb : Placed db)
    (h : Reachable (Cluster.step notFound) (Cluster.init db) s) : Sound s :=
  h.invariant (.init hdb) fun _ _ _ hI hs => hI.step hs

theorem Window.step {cl : Cl} {call : Nat} {keyPrefix key : Bytes} {home : Fin n} {v : Nat}
    (hI : Sound s ∧ Window (s.session cl) call keyPrefix key home v)
    (hroute : route n key = some home) (hkey : keyPrefix <+: key)
    (hv : v = 1 ∧ s.Stored key ∨ v = 0 ∧ ¬ s.Stored key) {a : Action Cl n}
    (hs : step notFound s a = some s') :
    Sound s' ∧ Window (s'.session cl) call keyPrefix key home v := by
  obtain ⟨hsound, hw⟩ := hI
  refine ⟨hsound.step hs, ?_⟩
  -- only a step of this session concerns it
  have hother : ∀ {cl' t}, (cl = cl' → Window t call keyPrefix key home v) →
      Window ((s.setSession cl' t).session cl) call keyPrefix key home v := by
    intro cl' t ht
    by_cases hcl : cl = cl'
    · rw [← hcl, setSession_session_self]
      exact ht hcl
    · show Window (Function.update s.session cl' t cl) _ _ _ _ _
      rwa [Function.update_of_ne hcl]
  rcases step_cases hs with ⟨cl', t, E, ht, rfl⟩ | ⟨cl', i, db, t, ht, rfl⟩
  · refine hother fun hcl => ?_
    subst hcl
    exact hw.sessionStep ht (hsound.shape cl)
  · refine hother fun hcl => ?_
    subst hcl
    exact hw.exec hkey (hsound.has hroute hv i) ht (hsound.shape cl)

/-- **What a GetAll says about one key.**  The proxy reads the GetAll in `s₀` and sends its
response in `s₂`.  A key with the prefix that is stored all the time in between is in the response
once; one that is stored at no time is not in it. -/
theorem getAll_during {db : Fin n → Store} (hdb : Placed db) {s₀ s₁ s₂ s₃ : Cluster Cl n} {cl : Cl}
    {keyPrefix : Bytes} {keys : List Bytes} (h₀ : Reachable (step notFound) (init db) s₀)
    (hreads : Reads (s₀.session cl) keyPrefix) (h₁ : step notFound s₀ (.proxyStep cl) = some s₁)
    (hcalls : (s₂.session cl).calls = (s₁.session cl).calls)
    (hkeys : (s₂.session cl).proxy = .respond keys)
    (h₃ : step notFound s₂ (.proxyStep cl) = some s₃) {key : Bytes} {home : Fin n}
    (hroute : route n key = some home) (hkey : keyPrefix <+: key) :
    (s₃.session cl).down = (s₂.session cl).down ++ [.getAll .Ok keys] ∧
      (During (step notFound) (fun s => s.Stored key) s₁ s₂ → keys.count key = 1) ∧
      (During (step notFound) (fun s => ¬ s.Stored key) s₁ s₂ → key ∉ keys) := by
  have hsound := Sound.reachable hdb h₀
  have hstart : ∀ v, Sound s₁ ∧
      Window (s₁.session cl) (s₁.session cl).calls keyPrefix key home v := by
    intro v
    refine ⟨hsound.step h₁, ?_⟩
    obtain ⟨st, hst⟩ := hsound.shape cl
    obtain ⟨t, ht, h₁⟩ := Option.bind_eq_some_iff.1 h₁
    cases h₁
    rw [setSession_session_self, (hst.proxyStep ht).2]
    have hstep : SessionStep cl (s₀.session cl) t [] := .proxyStep ht
    exact (Window.start hreads ⟨st, hst⟩).sessionStep hstep ⟨st, hst⟩
  have hcount : ∀ {v : Nat} {P : Cluster Cl n → Prop},
      (∀ s, P s → v = 1 ∧ s.Stored key ∨ v = 0 ∧ ¬ s.Stored key) →
      During (step notFound) P s₁ s₂ → keys.count key = v := by
    intro v P hP hrun
    have hend : Sound s₂ ∧ Window (s₂.session cl) (s₁.session cl).calls keyPrefix key home v :=
      hrun.invariant (hstart v) fun s a s' hs hI => Window.step hI hroute hkey (hP s hs)
    obtain ⟨-, -, hg⟩ := hend.2.current hcalls
    exact (hg.responds keys hkeys).trans (if_pos home.isLt)
  refine ⟨?_, hcount fun s hs => .inl ⟨rfl, hs⟩, fun hrun => ?_⟩
  · obtain ⟨t, ht, h₃⟩ := Option.bind_eq_some_iff.1 h₃
    cases h₃
    rw [setSession_session_self]
    unfold Session.proxyStep at ht
    rw [hkeys] at ht
    cases ht
    rfl
  · exact List.count_eq_zero.1 (hcount (fun s hs => .inr ⟨rfl, hs⟩) hrun)

end Steps

deriving instance DecidableEq for ProxyWorker

instance (s : Cluster Cl n) (key : Bytes) : Decidable (s.Stored key) :=
  inferInstanceAs (Decidable (∃ i, key ∈ s.db i))

/-- `t_1` is on the first of three shards. -/
def oneKey (i : Fin 3) : Store := if i = 0 then (∅ : Store).insert [116, 95, 49] [120] else ∅

/-- The keys that begin with `t` are collected, and another client puts `t_2` meanwhile. -/
def scanAndPut : List (Action Bool 3) :=
  [.proxyStep true, .workerRead true 0, .workerExec true 0,
   .call false (.put [116, 95, 50] [121]), .proxyStep false, .proxyStep false,
   .workerRead false 1, .workerExec false 1,
   .proxyStep true, .workerRead true 1, .workerExec true 1, .workerSend true 1,
   .proxyStep true, .workerSend true 0, .proxyStep true,
   .workerRead true 2, .workerExec true 2, .proxyStep true, .proxyStep true, .workerSend true 2,
   .proxyStep true, .proxyStep true]

/-- The states in which the proxy reads the GetAll, has read it, answers it, has answered it. -/
def scanStates : Option (Cluster Bool 3 × Cluster Bool 3 × Cluster Bool 3 × Cluster Bool 3) := do
  let s₀ ← Machine.run (step []) (init oneKey) [.call true (.getAll [116])]
  let s₁ ← step [] s₀ (.proxyStep true)
  let s₂ ← runWhile (step []) (fun s => decide (s.Stored [116, 95, 49])) s₁ scanAndPut
  let s₃ ← step [] s₂ (.proxyStep true)
  return (s₀, s₁, s₂, s₃)

theorem placed_oneKey : Placed oneKey := by
  intro key i j hroute hmem
  by_cases hj : j = 0
  · subst hj
    rcases Std.TreeMap.mem_insert.1 hmem with heq | hmem
    · cases Std.LawfulEqOrd.eq_of_compare heq
      have h : route 3 [116, 95, 49] = some 0 := by decide +kernel
      rw [h] at hroute
      exact Option.some.inj hroute
    · exact absurd hmem Std.TreeMap.not_mem_emptyc
  · rw [oneKey, if_neg hj] at hmem
    exact absurd hmem Std.TreeMap.not_mem_emptyc

theorem getAll_scanAndPut :
    ∃ s₀ s₁ s₂ s₃ : Cluster Bool 3, scanStates = some (s₀, s₁, s₂, s₃) ∧
      (s₂.session true).proxy = .respond [[116, 95, 49], [116, 95, 50]] ∧
      During (step []) (fun s => s.Stored [116, 95, 49]) s₁ s₂ ∧
      (s₃.session true).down =
        (s₂.session true).down ++ [.getAll .Ok [[116, 95, 49], [116, 95, 50]]] ∧
      List.count [116, 95, 49] [[116, 95, 49], [116, 95, 50]] = 1 := by
  have hstates : scanStates.map (fun (s₀, s₁, s₂, _) =>
      ((s₀.session true).proxy, (s₀.session true).up.head?, (s₁.session true).calls,
        (s₂.session true).calls, (s₂.session true).proxy)) =
      some (.idle, some (.getAll [116]), 0, 0, .respond [[116, 95, 49], [116, 95, 50]]) := by
    decide +kernel
  obtain ⟨⟨s₀, s₁, s₂, s₃⟩, hstates, heq⟩ := Option.map_eq_some_iff.1 hstates
  simp only [Prod.mk.injEq] at heq
  obtain ⟨hidle, hup, hcalls₁, hcalls₂, hkeys⟩ := heq
  refine ⟨s₀, s₁, s₂, s₃, hstates, hkeys, ?_⟩
  unfold scanStates at hstates
  obtain ⟨t₀, h₀, hstates⟩ := Option.bind_eq_some_iff.1 hstates
  obtain ⟨t₁, h₁, hstates⟩ := Option.bind_eq_some_iff.1 hstates
  obtain ⟨t₂, h₂, hstates⟩ := Option.bind_eq_some_iff.1 hstates
  obtain ⟨t₃, h₃, hstates⟩ := Option.bind_eq_some_iff.1 hstates
  cases hstates
  have hrun := During.of_runWhile h₂
  obtain ⟨hdown, hcount, -⟩ := getAll_during placed_oneKey (Reachable.init.run h₀) ⟨hidle, hup⟩ h₁
    (hcalls₂.trans hcalls₁.symm) hkeys h₃ (show route 3 [116, 95, 49] = some 0 by decide +kernel)
    (show [116] <+: [116, 95, 49] from ⟨[95, 49], rfl⟩)
  exact ⟨hrun, hdown, hcount hrun⟩

end Cluster

end SqpKv
