import SqpKv.Cluster.Rank

/-!
# Every call is carried out once

A call on a key goes to the shard of the key, a GetAll to every shard.  Whatever
the order of the threads' steps and whatever calls of `read` and `write` fail,

    a shard carries a call out at most once, behind its start
    and where a call returns, all its shards have carried it out before

(`CarriedOut`), so no update is lost, made twice, or made up.
-/

namespace SqpKv

open Wire Machine History

/-- The shards that the proxy sends a command to. -/
def Command.GoesTo {n : Nat} (c : Command) (i : Fin n) : Prop :=
  ∀ key, c.key? = some key → route n key = some i

/-- A shard carries a call out at most once, behind its start, and a call returns when all its shards
have carried it out. -/
structure CarriedOut {Cl : Type} {n : Nat} (H : List (Happening Cl n)) : Prop where
  once : (H.filterMap Happening.deed?).Nodup
  asked : ∀ id i c, .deed id i c ∈ H → c.GoesTo i ∧ Before (.call (.inv id c)) (.deed id i c) H
  done : ∀ id ret, .call (.res id ret) ∈ H → ∃ c, Before (.call (.inv id c)) (.call (.res id ret)) H ∧
    ∀ i, c.GoesTo i → Before (.deed id i c) (.call (.res id ret)) H

namespace CarriedOut

variable {Cl : Type} {n : Nat} {H : List (Happening Cl n)} {id : Cl × Nat} {c : Command}

theorem nil : CarriedOut ([] : List (Happening Cl n)) where
  once := List.nodup_nil
  asked := by simp
  done := by simp

/-- What has been said stays true, whatever happens next. -/
theorem asked_append (h : CarriedOut H) (x : Happening Cl n) {i : Fin n} (hmem : .deed id i c ∈ H) :
    c.GoesTo i ∧ Before (.call (.inv id c)) (.deed id i c) (H ++ [x]) :=
  (h.asked id i c hmem).imp_right fun hbefore => hbefore.append_right x

theorem done_append (h : CarriedOut H) (x : Happening Cl n) {ret : CallResult}
    (hmem : .call (.res id ret) ∈ H) :
    ∃ c, Before (.call (.inv id c)) (.call (.res id ret)) (H ++ [x]) ∧
      ∀ i, c.GoesTo i → Before (.deed id i c) (.call (.res id ret)) (H ++ [x]) := by
  obtain ⟨c, hinv, hdeeds⟩ := h.done id ret hmem
  exact ⟨c, hinv.append_right x, fun i hi => (hdeeds i hi).append_right x⟩

/-- A call starts. -/
theorem inv (h : CarriedOut H) : CarriedOut (H ++ [.call (.inv id c)]) where
  once := by
    rw [List.filterMap_append]
    exact (List.append_nil _).symm ▸ h.once
  asked id' i c' hmem := by
    rcases List.mem_append.1 hmem with hmem | hmem
    · exact h.asked_append _ hmem
    · cases List.mem_singleton.1 hmem
  done id' ret hmem := by
    rcases List.mem_append.1 hmem with hmem | hmem
    · exact h.done_append _ hmem
    · cases List.mem_singleton.1 hmem

/-- A shard carries a call out, and has not before. -/
theorem deed (h : CarriedOut H) {i : Fin n} (hinv : .call (.inv id c) ∈ H) (hgoes : c.GoesTo i)
    (hnew : ∀ c', .deed id i c' ∉ H) : CarriedOut (H ++ [.deed id i c]) where
  once := by
    rw [List.filterMap_append]
    refine List.nodup_append'.2 ⟨h.once, List.nodup_singleton _, ?_⟩
    intro x hx hx'
    obtain rfl : x = (id, i) := List.mem_singleton.1 hx'
    obtain ⟨y, hy, heq⟩ := List.mem_filterMap.1 hx
    cases y with
    | call e => cases heq
    | deed id' i' c' =>
      cases heq
      exact hnew c' hy
  asked id' i' c' hmem := by
    rcases List.mem_append.1 hmem with hmem | hmem
    · exact h.asked_append _ hmem
    · cases List.mem_singleton.1 hmem
      exact ⟨hgoes, before_append_singleton.2 (.inr ⟨hinv, rfl⟩)⟩
  done id' ret hmem := by
    rcases List.mem_append.1 hmem with hmem | hmem
    · exact h.done_append _ hmem
    · cases List.mem_singleton.1 hmem

/-- A call returns. -/
theorem res (h : CarriedOut H) {ret : CallResult} (hinv : .call (.inv id c) ∈ H)
    (hdeeds : ∀ i : Fin n, c.GoesTo i → .deed id i c ∈ H) :
    CarriedOut (H ++ [.call (.res id ret)]) where
  once := by
    rw [List.filterMap_append]
    exact (List.append_nil _).symm ▸ h.once
  asked id' i c' hmem := by
    rcases List.mem_append.1 hmem with hmem | hmem
    · exact h.asked_append _ hmem
    · cases List.mem_singleton.1 hmem
  done id' ret' hmem := by
    rcases List.mem_append.1 hmem with hmem | hmem
    · exact h.done_append _ hmem
    · cases List.mem_singleton.1 hmem
      refine ⟨c, before_append_singleton.2 (.inr ⟨hinv, rfl⟩), fun i hi => ?_⟩
      exact before_append_singleton.2 (.inr ⟨hdeeds i hi, rfl⟩)

end CarriedOut

/-! ## The invariant -/

/-- The call that it belongs to. -/
def Happening.id {Cl : Type} {n : Nat} : Happening Cl n → Cl × Nat
  | .call (.inv id _) => id
  | .call (.res id _) => id
  | .deed id _ _ => id

namespace Session

variable {n : Nat} {s : Session n} {i : Fin n}

/-- What a worker has read is the command of the call, and goes to its shard. -/
theorem Shape.got {st : Stage} (h : s.Shape st) {c : Command} (hw : (s.lane i).worker = .got c) :
    (∃ key, st = .before c ∧ c.key? = some key ∧ route n key = some i) ∨
      (st = .scanning ∧ s.pending = some c) := by
  have asked : ∀ {lst}, (s.lane i).At lst → lst = .asked c := by
    intro lst hat
    generalize s.lane i = l at hw hat
    cases hat <;> cases hw
    rfl
  have quiet : ¬ (s.lane i).At .quiet := by
    intro hq
    cases asked hq
  cases h with
  | asked hc hi hp hu hx hd hl =>
    rename_i c' key j
    by_cases hne : i = j
    · subst hne
      cases asked hl.1
      exact .inl ⟨key, rfl, hc, hi⟩
    · exact absurd (hl.2 i hne) quiet
  | answered hc hp hu hx hd hl =>
    rename_i c' key j r
    by_cases hne : i = j
    · subst hne
      cases asked hl.1
    · exact absurd (hl.2 i hne) quiet
  | fanOut hp hu hx hd hasked hl =>
    rename_i keyPrefix next
    by_cases hi : i < next
    · rcases hasked i hi with hat | ⟨keys, hat⟩
      · cases asked hat
        exact .inr ⟨rfl, hp⟩
      · cases asked hat
    · exact absurd (hl i (Nat.not_lt.1 hi)) quiet
  | collect hp hu hx hd hl hasked =>
    rename_i keyPrefix next keys
    by_cases hi : i < next
    · exact absurd (hl i hi) quiet
    · rcases hasked i (Nat.not_lt.1 hi) with hat | ⟨keys', hat⟩
      · cases asked hat
        exact .inr ⟨rfl, hp⟩
      · cases asked hat
  | idle hp hu hx hd hl => exact absurd (hl i) quiet
  | requested hc hp hu hx hd hl => exact absurd (hl i) quiet
  | dispatch hc hi hp hu hx hd hl => exact absurd (hl i) quiet
  | relay hc hp hu hx hd hl => exact absurd (hl i) quiet
  | arrived hc hp hu hx hd hl => exact absurd (hl i) quiet
  | scanRequested hp hu hx hd hl => exact absurd (hl i) quiet
  | respond hp hu hx hd hl => exact absurd (hl i) quiet
  | scanned hp hu hx hd hl => exact absurd (hl i) quiet

end Session

namespace Cluster

variable {Cl : Type} {n : Nat} {notFound : Bytes}

/-- The shard `i` has carried out the call `id`. -/
abbrev Did (H : List (Happening Cl n)) (id : Cl × Nat) (i : Fin n) : Prop :=
  ∃ c, .deed id i c ∈ H

/-- What the stage of the call `id` says about what has happened. -/
def Stands (H : List (Happening Cl n)) (id : Cl × Nat) (t : Session n) : Session.Stage → Prop
  | .idle => True
  | .before c => .call (.inv id c) ∈ H ∧ ∀ i, ¬ Did H id i
  | .after c _ => .call (.inv id c) ∈ H ∧ ∀ i, c.GoesTo i → .deed id i c ∈ H
  | .scanning => ∃ keyPrefix, t.pending = some (.getAll keyPrefix) ∧
      .call (.inv id (.getAll keyPrefix)) ∈ H ∧ (∀ i, Did H id i → t.Past i) ∧
      t.Gathers (fun j _ => .deed id j (.getAll keyPrefix) ∈ H)
        fun next _ => ∀ j : Fin n, j.val < next → .deed id j (.getAll keyPrefix) ∈ H

/-- The session of the client `cl`: nothing has happened to its calls to come. -/
def Standing (H : List (Happening Cl n)) (cl : Cl) (t : Session n) : Prop :=
  ∃ st, t.Shape st ∧ Stands H (cl, t.calls) t st ∧
    ∀ x ∈ H, ∀ k, x.id = (cl, k) → k < t.calls ∨ (k = t.calls ∧ st ≠ .idle)

structure Orderly (s : Cluster Cl n) (H : List (Happening Cl n)) : Prop where
  carried : CarriedOut H
  standing : ∀ cl, Standing H cl (s.session cl)

/-- What happens to other calls does not matter. -/
theorem Stands.mono {H E : List (Happening Cl n)} {id : Cl × Nat} {t : Session n}
    {st : Session.Stage} (h : Stands H id t st) (hE : ∀ x ∈ E, x.id ≠ id) : Stands (H ++ E) id t st := by
  have hdid : ∀ i, Did (H ++ E) id i → Did H id i := by
    rintro i ⟨c, hc⟩
    rcases List.mem_append.1 hc with hc | hc
    · exact ⟨c, hc⟩
    · exact absurd rfl (hE _ hc)
  cases st with
  | idle => trivial
  | before c => exact ⟨List.mem_append_left _ h.1, fun i hi => h.2 i (hdid i hi)⟩
  | after c r =>
    exact ⟨List.mem_append_left _ h.1, fun i hi => List.mem_append_left _ (h.2 i hi)⟩
  | scanning =>
    obtain ⟨keyPrefix, hp, hinv, hpast, hg⟩ := h
    refine ⟨keyPrefix, hp, List.mem_append_left _ hinv, fun i hi => hpast i (hdid i hi), ?_⟩
    refine hg.mono (fun j _ hj => List.mem_append_left _ hj) fun next _ hnext j hj => ?_
    exact List.mem_append_left _ (hnext j hj)

theorem Standing.mono {H E : List (Happening Cl n)} {cl : Cl} {t : Session n} (h : Standing H cl t)
    (hE : ∀ x ∈ E, x.id.1 ≠ cl) : Standing (H ++ E) cl t := by
  obtain ⟨st, hshape, hstands, hfresh⟩ := h
  refine ⟨st, hshape, hstands.mono fun x hx heq => hE x hx (congrArg Prod.fst heq), ?_⟩
  intro x hx k hk
  rcases List.mem_append.1 hx with hx | hx
  · exact hfresh x hx k hk
  · exact absurd (congrArg Prod.fst hk) (hE x hx)

theorem Orderly.init {db : Fin n → Store} : Orderly (init db : Cluster Cl n) [] where
  carried := .nil
  standing _ := ⟨.idle, Session.init_shape, trivial, fun _ hx => absurd hx List.not_mem_nil⟩

theorem joins_did (H : List (Happening Cl n)) (id : Cl × Nat) (c : Command) :
    Session.Joins (n := n) (fun j _ => .deed id j c ∈ H)
      fun next _ => ∀ j : Fin n, j.val < next → .deed id j c ∈ H where
  nil j hj := absurd hj (Nat.not_lt_zero _)
  append j keys more hkeys hmore j' hj' := by
    by_cases heq : j' = j
    · rwa [heq]
    · have hne : j'.val ≠ j.val := fun h => heq (Fin.ext h)
      exact hkeys j' (by omega)

/-- The calls to come are those behind the one that something has happened to. -/
theorem fresh_append {H : List (Happening Cl n)} {cl : Cl} {k : Nat} {st st' : Session.Stage} (hst : st' ≠ .idle)
    (hfresh : ∀ x ∈ H, ∀ k', x.id = (cl, k') → k' < k ∨ (k' = k ∧ st ≠ .idle)) {x : Happening Cl n}
    (hx : x.id = (cl, k)) :
    ∀ y ∈ H ++ [x], ∀ k', y.id = (cl, k') → k' < k ∨ (k' = k ∧ st' ≠ .idle) := by
  intro y hy k' hk'
  rcases List.mem_append.1 hy with hy | hy
  · exact (hfresh y hy k' hk').imp_right fun ⟨heq, _⟩ => ⟨heq, hst⟩
  · rw [List.mem_singleton.1 hy, hx] at hk'
    exact .inr ⟨(congrArg Prod.snd hk').symm, hst⟩

section Steps

variable [DecidableEq Cl] {s : Cluster Cl n} {H : List (Happening Cl n)} {cl : Cl} {t : Session n}

/-- One session changes, the others stand as before. -/
theorem Orderly.update (h : Orderly s H) {E : List (Happening Cl n)} (hcarried : CarriedOut (H ++ E))
    (hE : ∀ x ∈ E, x.id.1 = cl) (ht : Standing (H ++ E) cl t) (db : Fin n → Store)
    (hist : List (CallEvent Cl)) :
    Orderly { s.setSession cl t with db, history := hist } (H ++ E) := by
  refine ⟨hcarried, fun cl' => ?_⟩
  show Standing (H ++ E) cl' (Function.update s.session cl t cl')
  by_cases hcl : cl' = cl
  · subst hcl
    rwa [Function.update_self]
  · rw [Function.update_of_ne hcl]
    exact (h.standing cl').mono fun x hx heq => hcl (heq.symm.trans (hE x hx))

/-- A step of one session that nobody sees. -/
theorem Orderly.internal (h : Orderly s H) (hs : (s.session cl).Internal t) (db : Fin n → Store)
    (hist : List (CallEvent Cl)) : Orderly { s.setSession cl t with db, history := hist } H := by
  obtain ⟨st, hshape, hstands, hfresh⟩ := h.standing cl
  obtain ⟨hshape', hcalls⟩ := hs.shape hshape
  have ht : Standing H cl t := by
    refine ⟨st, hshape', ?_, by rwa [hcalls]⟩
    rw [hcalls]
    cases st with
    | scanning =>
      obtain ⟨keyPrefix, hp, hinv, hpast, hg⟩ := hstands
      obtain ⟨hg', hp'⟩ := hs.gathers hshape (joins_did H _ _) hg
      exact ⟨keyPrefix, hp'.trans hp, hinv, fun i hi => hs.past hshape (hpast i hi), hg'⟩
    | _ => exact hstands
  have horderly := h.update (E := []) (by rw [List.append_nil]; exact h.carried) (by simp)
    (by rw [List.append_nil]; exact ht) db hist
  rwa [List.append_nil] at horderly

/-- A call starts. -/
theorem Orderly.call (h : Orderly s H) {c : Command} (hs : (s.session cl).call c = some t)
    (db : Fin n → Store) (hist : List (CallEvent Cl)) :
    Orderly { s.setSession cl t with db, history := hist }
      (H ++ [.call (.inv (cl, (s.session cl).calls) c)]) := by
  obtain ⟨st, hshape, -, hfresh⟩ := h.standing cl
  obtain ⟨rfl, hcalls, hkind⟩ := hshape.call hs
  refine h.update h.carried.inv (fun x hx => ?_) ?_ db hist
  · rw [List.mem_singleton.1 hx]
    rfl
  have hinv : .call (.inv (cl, (s.session cl).calls) c) ∈
      H ++ [(.call (.inv (cl, (s.session cl).calls) c) : Happening Cl n)] := by simp
  -- nothing has been done for it
  have hnot : ∀ i, ¬ Did (H ++ [.call (.inv (cl, (s.session cl).calls) c)])
      (cl, (s.session cl).calls) i := by
    rintro i ⟨c', hc'⟩
    rcases List.mem_append.1 hc' with hc' | hc'
    · rcases hfresh _ hc' _ rfl with hlt | ⟨-, hne⟩
      · omega
      · exact hne rfl
    · cases List.mem_singleton.1 hc'
  rcases hkind with ⟨key, -, hshape'⟩ | ⟨hc, hshape'⟩
  · refine ⟨.before c, hshape', ?_, ?_⟩
    · rw [hcalls]
      exact ⟨hinv, hnot⟩
    · rw [hcalls]
      exact fresh_append (by simp) hfresh rfl
  · refine ⟨.scanning, hshape', ?_, ?_⟩
    · rw [hcalls]
      cases c with
      | getAll keyPrefix =>
        exact ⟨keyPrefix, Session.pending_of_call hs, hinv, fun i hi => absurd hi (hnot i),
          Session.Gathers.call hshape hs⟩
      | _ => cases hc
    · rw [hcalls]
      exact fresh_append (by simp) hfresh rfl

/-- A call returns. -/
theorem Orderly.result (h : Orderly s H) {c : Command} {ret : CallResult}
    (hs : (s.session cl).result = some (c, ret, t)) (db : Fin n → Store)
    (hist : List (CallEvent Cl)) :
    Orderly { s.setSession cl t with db, history := hist }
      (H ++ [.call (.res (cl, (s.session cl).calls) ret)]) := by
  obtain ⟨st, hshape, hstands, hfresh⟩ := h.standing cl
  obtain ⟨hcalls, hshape', hkind⟩ := hshape.result hs
  have hcarried : CarriedOut (H ++ [.call (.res (cl, (s.session cl).calls) ret)]) := by
    rcases hkind with ⟨key, r, rfl, -, -⟩ | ⟨rfl, -⟩
    · exact h.carried.res hstands.1 hstands.2
    · obtain ⟨keyPrefix, hp, hinv, -, hg⟩ := hstands
      obtain ⟨keyPrefix', keys, rfl, rfl⟩ := hshape.result_scanning hs
      exact h.carried.res hinv fun i _ => hg.result hshape hs i i.isLt
  refine h.update hcarried (fun x hx => ?_) ⟨.idle, hshape', trivial, ?_⟩ db hist
  · rw [List.mem_singleton.1 hx]
    rfl
  · intro x hx k hk
    rw [hcalls]
    left
    rcases List.mem_append.1 hx with hx | hx
    · have hold := hfresh x hx k hk
      omega
    · rw [List.mem_singleton.1 hx] at hk
      have hk' : (s.session cl).calls = k := congrArg Prod.snd hk
      omega

/-- A worker carries out a call. -/
theorem Orderly.exec (h : Orderly s H) {i : Fin n} {db : Store} {c : Command}
    (hw : ((s.session cl).lane i).worker = .got c)
    (hs : (s.session cl).workerExec notFound i (s.db i) = some (db, t)) (hist : List (CallEvent Cl)) :
    Orderly { s.setSession cl t with db := Function.update s.db i db, history := hist }
      (H ++ [.deed (cl, (s.session cl).calls) i c]) := by
  obtain ⟨st, hshape, hstands, hfresh⟩ := h.standing cl
  obtain ⟨hcalls, hexec⟩ := hshape.workerExec hs
  have hmem : .deed (cl, (s.session cl).calls) i c ∈
      H ++ [(.deed (cl, (s.session cl).calls) i c : Happening Cl n)] := by simp
  have hid : ∀ x ∈ [(.deed (cl, (s.session cl).calls) i c : Happening Cl n)], x.id.1 = cl := by
    intro x hx
    rw [List.mem_singleton.1 hx]
    rfl
  rcases hshape.got hw with ⟨key, rfl, hc, hroute⟩ | ⟨rfl, hp⟩
  · have hgoes : c.GoesTo i := by
      intro key' hkey'
      rw [hc] at hkey'
      cases hkey'
      exact hroute
    refine h.update (h.carried.deed hstands.1 hgoes fun c' hc' => hstands.2 i ⟨c', hc'⟩) hid ?_ _ hist
    rcases hexec with ⟨_, _, heq, -, -, -, hshape'⟩ | ⟨hbefore, -, -⟩
    · cases heq
      refine ⟨_, hshape', ?_, ?_⟩
      · rw [hcalls]
        refine ⟨List.mem_append_left _ hstands.1, fun j hj => ?_⟩
        have hji := hj key hc
        rw [hroute] at hji
        cases hji
        exact hmem
      · rw [hcalls]
        exact fresh_append (by simp) hfresh rfl
    · cases hbefore
  · obtain ⟨keyPrefix, hp', hinv, hpast, hg⟩ := hstands
    rw [hp] at hp'
    cases hp'
    have hgoes : (Command.getAll keyPrefix).GoesTo i := by
      intro key hkey
      cases hkey
    have hnew : ∀ c', .deed (cl, (s.session cl).calls) i c' ∉ H := by
      intro c' hc'
      rw [(hpast i ⟨c', hc'⟩).not_exec hshape] at hs
      cases hs
    refine h.update (h.carried.deed hinv hgoes hnew) hid ?_ _ hist
    rcases hexec with ⟨_, _, heq, -⟩ | ⟨-, -, hshape'⟩
    · cases heq
    have hg' : (s.session cl).Gathers
        (fun j _ => .deed (cl, (s.session cl).calls) j (.getAll keyPrefix) ∈
          H ++ [(.deed (cl, (s.session cl).calls) i (.getAll keyPrefix) : Happening Cl n)])
        fun next _ => ∀ j : Fin n, j.val < next →
          .deed (cl, (s.session cl).calls) j (.getAll keyPrefix) ∈
            H ++ [(.deed (cl, (s.session cl).calls) i (.getAll keyPrefix) : Happening Cl n)] :=
      hg.mono (fun j _ hj => List.mem_append_left _ hj)
        fun next _ hnext j hj => List.mem_append_left _ (hnext j hj)
    obtain ⟨hg'', hp''⟩ := hg'.workerExec hshape hp hmem hs
    refine ⟨.scanning, hshape', ?_, ?_⟩
    · rw [hcalls]
      refine ⟨keyPrefix, hp''.trans hp, List.mem_append_left _ hinv, ?_, hg''⟩
      rintro j ⟨c', hc'⟩
      rcases List.mem_append.1 hc' with hc' | hc'
      · exact (hpast j ⟨c', hc'⟩).workerExec hshape hs
      · cases List.mem_singleton.1 hc'
        exact hshape.past_of_exec hs
    · rw [hcalls]
      exact fresh_append (by simp) hfresh rfl

theorem Orderly.step (h : Orderly s H) {s' : Cluster Cl n} {a : Action Cl n}
    (hs : step notFound s a = some s') : Orderly s' (H ++ happens s a) := by
  cases a with
  | call cl c =>
    obtain ⟨t, ht, hs⟩ := Option.bind_eq_some_iff.1 hs
    cases hs
    exact h.call ht _ _
  | result cl =>
    obtain ⟨⟨c, ret, t⟩, ht, hs⟩ := Option.bind_eq_some_iff.1 hs
    cases hs
    simp only [happens, event, deeds, ht]
    exact h.result ht _ _
  | workerExec cl i =>
    obtain ⟨⟨db, t⟩, ht, hs⟩ := Option.bind_eq_some_iff.1 hs
    cases hs
    obtain ⟨⟨_, l⟩, hl, -⟩ := Option.bind_eq_some_iff.1 ht
    unfold Lane.exec at hl
    split at hl
    · next c hw =>
      simp only [happens, event, deeds, hw]
      exact h.exec hw ht _
    · cases hl
  | proxyStep cl =>
    obtain ⟨t, ht, hs⟩ := Option.bind_eq_some_iff.1 hs
    cases hs
    show Orderly _ (H ++ [])
    rw [List.append_nil]
    exact h.internal (.inl ht) _ _
  | workerRead cl i =>
    obtain ⟨t, ht, hs⟩ := Option.bind_eq_some_iff.1 hs
    cases hs
    show Orderly _ (H ++ [])
    rw [List.append_nil]
    exact h.internal (.inr (.inl ⟨i, ht⟩)) _ _
  | workerSend cl i =>
    obtain ⟨t, ht, hs⟩ := Option.bind_eq_some_iff.1 hs
    cases hs
    show Orderly _ (H ++ [])
    rw [List.append_nil]
    exact h.internal (.inr (.inr ⟨i, ht⟩)) _ _

theorem orderly {db : Fin n → Store} (h : Emits (step notFound) happens (init db) s H) :
    Orderly s H :=
  h.invariant .init fun _ _ _ _ _ hI hs => hI.step hs

end Steps

end Cluster

/-! ## Every run -/

namespace ByteCluster

variable {Cl : Type} [DecidableEq Cl] {n : Nat} {e : ByteEnv}

/-- **Every call is carried out once**, whatever calls of `read` and `write` fail. -/
theorem carried_out {db : Fin n → Store} {as : List (Action Cl n)} {s : ByteCluster Cl n}
    (h : Machine.run (step e) (init db) as = some s)
    (hno : ¬ Meets (step e) (fun s a => ¬ Admits e s a) (init db) as) :
    CarriedOut (trace (step e) (happens e) (init db) as) := by
  obtain ⟨t, ht, -⟩ := exists_rel h hno
  exact (Cluster.orderly ht).carried

theorem carried_out_lostGet :
    ∃ s, Machine.run (step plainEnv) (init fun _ => ∅) lostGet = some s ∧
      CarriedOut (trace (step plainEnv) (happens plainEnv) (init fun _ => ∅) lostGet) := by
  obtain ⟨s, hs, -⟩ := run_lostGet
  exact ⟨s, hs, carried_out hs lostGet_admitted⟩

end ByteCluster

end SqpKv
