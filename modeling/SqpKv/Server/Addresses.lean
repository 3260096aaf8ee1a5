import SqpKv.Server.Agreement

/-!
# `ResolveIpAddresses`
-/

namespace SqpKv

open Wire Processes Machine Function

/-! ## The address of a rank -/

/-- The address `GetInfinibandIp` finds. -/
def Host.address (h : Host) : Option Bytes :=
  if (getInfinibandIp h h.indeterminate).1 = -1 then none
  else (cString (getInfinibandIp h h.indeterminate).2).toOption

/-- An array with a name at its front. -/
def Named (buffer : Bytes) : Prop := ∃ (found : HostName) (rest : Bytes), buffer = found.name ++ 0 :: rest

theorem cString_append {s : Bytes} (h : 0 ∉ s) (rest : Bytes) : cString (s ++ 0 :: rest) = .ok s := by
  have hs : (s ++ 0 :: rest).takeWhile (fun b => decide (b ≠ 0)) = s := by
    rw [List.takeWhile_append_of_pos, List.takeWhile_cons_of_neg (by simp), List.append_nil]
    intro b hb
    exact decide_eq_true fun h0 => h (h0 ▸ hb)
  unfold cString
  rw [if_pos (by simp), hs]

theorem findAddress_named {list : List Interface} {ipFound : Bool} {buffer : Bytes}
    (h : ipFound = true → Named buffer) :
    (findAddress list ipFound buffer).1 = -1 ∨
      ((findAddress list ipFound buffer).1 = 0 ∧ Named (findAddress list ipFound buffer).2) := by
  induction list generalizing ipFound buffer with
  | nil =>
    cases ipFound with
    | true => exact .inr ⟨rfl, h rfl⟩
    | false => exact .inl rfl
  | cons ifa list ih =>
    unfold findAddress
    split
    · cases hinfo : ifa.nameInfo with
      | none => exact .inl rfl
      | some found =>
        refine ih fun _ => ⟨found, buffer.drop (found.name ++ [0]).length, ?_⟩
        rw [overwrite, List.append_assoc]
        rfl
    · exact ih h

theorem getInfinibandIp_named (h : Host) (buffer : Bytes) :
    (getInfinibandIp h buffer).1 = -1 ∨
      ((getInfinibandIp h buffer).1 = 0 ∧ Named (getInfinibandIp h buffer).2) := by
  unfold getInfinibandIp
  cases h.interfaces with
  | none => exact .inl rfl
  | some list => exact findAddress_named (by simp)

/-- A rank finds no address, or a name that is at the front of its array. -/
theorem address_cases (h : Host) :
    (h.address = none ∧ (getInfinibandIp h h.indeterminate).1 = -1) ∨
      ∃ (found : HostName) (rest : Bytes), h.address = some found.name ∧
        (getInfinibandIp h h.indeterminate).1 ≠ -1 ∧
        (getInfinibandIp h h.indeterminate).2 = found.name ++ 0 :: rest := by
  unfold Host.address
  rcases getInfinibandIp_named h h.indeterminate with hnone | ⟨h0, found, rest, heq⟩
  · exact .inl ⟨if_pos hnone, hnone⟩
  · have hne : (getInfinibandIp h h.indeterminate).1 ≠ -1 := by
      rw [h0]
      decide
    refine .inr ⟨found, rest, ?_, hne, heq⟩
    rw [if_neg hne, heq, cString_append found.noNul]
    rfl

/-- What a shard sends. -/
def addressMessages : Option Bytes → List MpiMessage
  | none => [.int (-1)]
  | some s => [.int (s.length + 1), .chars (s ++ [0])]

/-- What the proxy makes of it. -/
def AddressTable.add (t : AddressTable) : Option Bytes → AddressTable
  | none => { t with success := 0 }
  | some s =>
    { t with ipAddress := overwrite t.ipAddress (s ++ [0]), ipAddresses := t.ipAddresses ++ [s] }

theorem foldl_add (g : Nat → Option Bytes) (l : List Nat) (t : AddressTable) :
    (l.foldl (fun t s => t.add (g s)) t).success = (if ∀ s ∈ l, g s ≠ none then t.success else 0) ∧
      (l.foldl (fun t s => t.add (g s)) t).ipAddresses = t.ipAddresses ++ l.filterMap g := by
  induction l generalizing t with
  | nil => simp
  | cons s l ih =>
    rw [List.foldl_cons, (ih _).1, (ih _).2]
    cases hs : g s with
    | none => simp [AddressTable.add, hs]
    | some a => simp [AddressTable.add, hs]

namespace ServerLauncher

variable {n : Nat} {α : Type}

theorem sends_sendAddress (root : Nat) (h : Host) (x : Option Store) (f : Unit → Rank α) :
    Sends root ((sendAddress root (getInfinibandIp h h.indeterminate)).bind f) x
      (addressMessages h.address) (f ()) x := by
  unfold sendAddress
  rcases address_cases h with ⟨hnone, hrc⟩ | ⟨found, rest, hsome, hrc, hbuffer⟩
  · rw [if_pos hrc, hnone]
    exact .send (.refl _ _)
  · have htake : (found.name ++ 0 :: rest).take (found.name.length + 1) = found.name ++ [0] := by
      rw [List.take_length_add_append]
      rfl
    rw [if_neg hrc, hsome, hbuffer, cString_append found.noNul]
    show Sends root (((sendInt root (found.name.length + 1)).bind fun _ => sendChars root
      ((found.name ++ 0 :: rest).take (found.name.length + 1))).bind f) x _ _ x
    rw [htake]
    exact .send (.send (.refl _ _))

theorem takes_receiveName {rank : Nat} {t : AddressTable} {x : Option Store}
    {inbox : Nat → List MpiMessage} (found : HostName)
    (hin : inbox rank = [.chars (found.name ++ [0])]) :
    Takes inbox (receiveName rank (found.name.length + 1) t) x (update inbox rank [])
      (.done (t.add (some found.name))) x := by
  have hlen : ¬ ((found.name.length : Int) + 1 < (found.name ++ [0]).length) := by
    rw [List.length_append, List.length_singleton]
    omega
  have hfits : ¬ NI_MAXHOST < (found.name ++ [0]).length := by
    have := found.fits
    rw [List.length_append, List.length_singleton]
    omega
  have hchars : MpiMessage.toChars (found.name.length + 1) (.chars (found.name ++ [0])) =
      .done (found.name ++ [0]) := by
    rw [MpiMessage.toChars, if_neg hlen, if_neg hfits]
  have hstring : cString (overwrite t.ipAddress (found.name ++ [0])) = .ok found.name := by
    rw [overwrite, List.append_assoc]
    exact cString_append found.noNul _
  refine .recv hin ?_
  show Takes _ ((MpiMessage.toChars (found.name.length + 1) (.chars (found.name ++ [0]))).bind _)
    _ _ _ _
  rw [hchars]
  show Takes _ ((Rank.ofExcept (cString (overwrite t.ipAddress (found.name ++ [0])))).bind _) _ _ _ _
  rw [hstring]
  exact .refl _ _ _

theorem takes_receiveAddress {l : ServerLauncher} {t : AddressTable} {s : Nat} {x : Option Store}
    {inbox : Nat → List MpiMessage} {h : Host}
    (hin : inbox (l.idToRank s) = addressMessages h.address) :
    Takes inbox (l.receiveAddress t s) x (update inbox (l.idToRank s) [])
      (.done (t.add h.address)) x := by
  rcases address_cases h with ⟨hnone, -⟩ | ⟨found, rest, hsome, -, -⟩
  · rw [hnone] at hin ⊢
    exact .recv hin (.refl _ _ _)
  · rw [hsome] at hin ⊢
    have hne : ¬ ((found.name.length : Int) + 1 = -1) := by omega
    refine .recv hin ?_
    have hname := takes_receiveName (t := t) (x := x) found
      (update_self (l.idToRank s) [MpiMessage.chars (found.name ++ [0])] inbox)
    have hstep : (if (found.name.length : Int) + 1 = -1 then .done { t with success := 0 }
        else receiveName (l.idToRank s) (found.name.length + 1) t) =
        receiveName (l.idToRank s) (found.name.length + 1) t := if_neg hne
    rw [update_idem, ← hstep] at hname
    exact hname

/-- The messages of the resolution. -/
def addresses (host : Fin (n + 1) → Host) (root i : Fin (n + 1)) : List MpiMessage :=
  if i = root then [] else addressMessages (host i).address

/-- What the proxy has behind its loop. -/
def resolved (host : Fin (n + 1) → Host) (l : ServerLauncher) (h : Host) : AddressTable :=
  l.others.foldl (fun t (s : Nat) => t.add (host (rankOf n (l.idToRank s))).address)
    ⟨(getInfinibandIp h h.indeterminate).2, 1, l.ipAddresses⟩

/-- What `ResolveIpAddresses` returns, and leaves in the members. -/
def result (h : Host) (l : ServerLauncher) (success : Int) (ipAddresses : List Bytes) :
    ServerLauncher × Status :=
  ({ l with ipAddresses }, if success ≠ 0 then .Ok else .Err h.errorText)

theorem resolveIpAddresses_bind (h : Host) (l : ServerLauncher)
    (f : ServerLauncher × Status → Rank α) :
    (l.resolveIpAddresses h).bind f =
      (l.exchangeAddresses (getInfinibandIp h h.indeterminate)).bind fun r =>
        f (result h l r.1 r.2) :=
  Proc.bind_assoc _ _ _

section

variable {host : Fin (n + 1) → Host} {db : Fin (n + 1) → Option Store}
  {ls : Fin (n + 1) → ServerLauncher} {root : Fin (n + 1)}

variable (host db) in
/-- The round, where the table of the proxy is right. -/
theorem reachable_resolveIpAddresses (hrank : ∀ i, (ls i).worldRank = i)
    (hproxy : ∀ i, (ls i).proxyRank = root.val) (hcovers : Net.Covers root (ls root).sources)
    (f : Fin (n + 1) → ServerLauncher × Status → Rank α) :
    Reachable Net.step (.calm (fun i => ((ls i).resolveIpAddresses (host i)).bind (f i)) db)
      (.calm (fun i => f i (result (host i) (ls i) (resolved host (ls root) (host root)).success
        (if i = root then (resolved host (ls root) (host root)).ipAddresses
          else (ls i).ipAddresses))) db) := by
  refine Net.round root (addresses host root)
    (m := .int (resolved host (ls root) (host root)).success) (b := fun i => .int 1)
    (k := fun i m => (m.toInt.bind fun v =>
      .done (v, if i = root then (resolved host (ls root) (host root)).ipAddresses
        else (ls i).ipAddresses)).bind fun r => f i (result (host i) (ls i) r.1 r.2))
    ?_ (if_pos rfl) ?_
  · intro i hi
    have hself : ¬((ls i).worldRank : Int) = (ls i).proxyRank := by
      rw [hrank, hproxy]
      exact fun h => hi (Fin.ext (Int.ofNat.inj h))
    have hdest : (ls i).proxyRank.toNat = root.val := by
      rw [hproxy]
      rfl
    rw [resolveIpAddresses_bind, exchangeAddresses, if_neg hself, hdest,
      show addresses host root i = _ from if_neg hi, if_neg hi]
    show Sends root (Proc.bind (Proc.bind _ _) _) _ _ _ _
    rw [Proc.bind_assoc]
    exact sends_sendAddress root (host i) (db i) _
  · have hself : ((ls root).worldRank : Int) = (ls root).proxyRank := by rw [hrank, hproxy]
    have hdest : (ls root).proxyRank.toNat = root.val := by
      rw [hproxy]
      rfl
    have hloop := Takes.foldlM (x := db root) (f := (ls root).receiveAddress)
      (g := fun t (s : Nat) => t.add (host (rankOf n ((ls root).idToRank s))).address)
      (fun (s : Nat) => (ls root).idToRank s) (Net.queues (addresses host root)) (ls root).others
      ⟨(getInfinibandIp (host root) (host root).indeterminate).2, 1, (ls root).ipAddresses⟩
      hcovers.1 ?_
    · rw [show (ls root).others.map _ = (ls root).sources from rfl, hcovers.taken (if_pos rfl)]
        at hloop
      rw [resolveIpAddresses_bind, exchangeAddresses, if_pos hself, hdest, if_pos rfl]
      exact (hloop.bind _).bind _
    · intro t s inbox hs hin
      obtain ⟨hne, hlt⟩ := (hcovers.2 _).1 (List.mem_map_of_mem hs)
      exact takes_receiveAddress (hin.trans (queues_other _ hne hlt))

end

end ServerLauncher

end SqpKv
