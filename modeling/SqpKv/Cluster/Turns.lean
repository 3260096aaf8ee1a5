import SqpKv.Cluster.Progress

/-!
# Taking turns

`ReadWholePacket` keeps nothing of what it reads behind the end of a packet, and
nothing tells a response which request it answers.  A session gets by because
its threads take turns.  As long as none of its own calls of `read` and `write`
fails,

    between two calls of the client all its connections are empty
    in a call, a connection carries pieces of one packet, one way
    a call on a single key uses one connection to a shard

(`ByteSession.TakesTurns`), whatever happens in the other sessions.
-/

namespace SqpKv

open Wire Machine

/-- Some successive pieces of one packet. -/
def OfOnePacket (ps : List Bytes) : Prop := ∃ data before after, before ++ ps ++ after = pieces data

theorem OfOnePacket.nil : OfOnePacket [] := ⟨[], [], pieces [], rfl⟩

theorem OfOnePacket.of_eq {data : Bytes} {before ps after : List Bytes}
    (h : before ++ ps ++ after = pieces data) : OfOnePacket ps := ⟨data, before, after, h⟩

theorem OfOnePacket.last {data : Bytes} {before ps : List Bytes} (h : before ++ ps = pieces data) :
    OfOnePacket ps := ⟨data, before, [], by rw [List.append_nil, h]⟩

/-- What the network and the queues at its ends carry each way, between two programs. -/
structure Wires where
  there : List Bytes
  back : List Bytes

namespace Wires

def Empty (w : Wires) : Prop := w.there = [] ∧ w.back = []

/-- Pieces of one packet, one way. -/
structure OneWay (w : Wires) : Prop where
  way : w.there = [] ∨ w.back = []
  there : OfOnePacket w.there
  back : OfOnePacket w.back

end Wires

def ByteLane.wires (v : ByteLane) : Wires := ⟨v.toShard, v.toProxy⟩

namespace ByteSession

variable {n : Nat}

/-- The connection of the client. -/
def wires (s : ByteSession n) : Wires := ⟨s.up, s.down⟩

/-- The threads of a session take turns. -/
structure TakesTurns (s : ByteSession n) : Prop where
  client : s.wires.OneWay
  shard : ∀ i, (s.lane i).wires.OneWay
  idle : s.client.control = .idle → s.wires.Empty ∧ ∀ i, (s.lane i).wires.Empty
  key : ∀ c key, s.client.control.command? = some c → c.key? = some key →
    ∀ i j, ¬ (s.lane i).wires.Empty → ¬ (s.lane j).wires.Empty → i = j

end ByteSession

/-! ## One connection -/

namespace LaneRel

variable {v : ByteLane} {l : Lane} {todo : Todo} {taken : List Bytes}

theorem oneWay (h : LaneRel False v l todo taken) : v.wires.OneWay := by
  cases h with
  | quiet hw hto hfrom hl htodo htaken =>
    refine ⟨.inl hto, ?_, ?_⟩
    · rw [ByteLane.wires, hto]
      exact .nil
    · rw [ByteLane.wires, hfrom]
      exact .nil
  | asking hw hto hrest hfrom hl hsize htodo htaken =>
    refine ⟨.inr hfrom, .of_eq hto, ?_⟩
    rw [ByteLane.wires, hfrom]
    exact .nil
  | asked hw hto hfrom hl hsize htodo htaken =>
    refine ⟨.inr hfrom, .last hto, ?_⟩
    rw [ByteLane.wires, hfrom]
    exact .nil
  | answered hw hto hfrom hdata hl htodo =>
    refine ⟨.inl hto, ?_, .of_eq hfrom⟩
    rw [ByteLane.wires, hto]
    exact .nil
  | gone hlost hw hfrom => exact hlost.elim

/-- Where nothing is asked or answered, and nothing is being written. -/
theorem empty (h : LaneRel False v l todo taken) (hl : l.At .quiet) (htodo : todo = none) :
    v.wires.Empty := by
  cases h with
  | quiet hw hto hfrom hl' htodo' htaken => exact ⟨hto, hfrom⟩
  | asking hw hto hrest hfrom hl' hsize htodo' htaken =>
    rw [htodo] at htodo'
    cases htodo'
  | asked hw hto hfrom hl' hsize htodo' htaken =>
    rw [hl'] at hl
    cases hl
  | answered hw hto hfrom hdata hl' htodo' =>
    rw [hl'] at hl
    cases hl
  | gone hlost hw hfrom => exact hlost.elim

end LaneRel

/-! ## The connection of the client -/

theorem UpRel.nil {n : Nat} {ps left : List Bytes} (h : UpRel n ps left []) : ps = [] := by
  cases h with
  | none hps hleft => exact hps

theorem UpRel.packet {n : Nat} {got ps left : List Bytes} {cs : List Command}
    (h : UpRel n (got ++ ps) left cs) : OfOnePacket ps := by
  cases h with
  | none hps hleft =>
    rw [(List.append_eq_nil_iff.1 hps).2]
    exact .nil
  | some hkey hsize hps => exact .of_eq hps

theorem DownRel.sofar {ps sofar : List Bytes} (h : DownRel ps sofar []) : ps = sofar := by
  cases h with
  | none hps => exact hps

namespace ClientRel

variable {pending : Option Command} {down : List Response} {left sofar ps : List Bytes}
  {c : ClientControl}

theorem of_idle (h : ClientRel False pending down left sofar ps .idle) :
    pending = none ∧ ps = [] := by
  cases h with
  | idle hp hleft hsofar hps => exact ⟨hp, hps⟩

/-- What is on its way to the client. -/
theorem packet (h : ClientRel False pending down left sofar ps c) (hbegins : Begins sofar) :
    OfOnePacket ps := by
  cases h with
  | idle hp hleft hsofar hps =>
    rw [hps]
    exact .nil
  | sending hp hd hleft hsofar hps =>
    rw [hps]
    exact .nil
  | reading hp hleft hgot hd =>
    cases hd with
    | none hps =>
      obtain ⟨data, rest, -, heq⟩ := hbegins
      exact .of_eq (by rw [hps, heq])
    | some hsofar hps hdata => exact .last hps
  | failed hlost => exact hlost.elim

/-- Nothing is, before the proxy writes. -/
theorem nothing (h : ClientRel False pending down left sofar ps c) (hdown : down = [])
    (hsofar : sofar = []) : ps = [] := by
  cases h with
  | idle hp hleft hsofar' hps => exact hps
  | sending hp hd hleft hsofar' hps => exact hps
  | reading hp hleft hgot hd =>
    rw [hdown] at hd
    exact (List.append_eq_nil_iff.1 (hd.sofar.trans hsofar)).2
  | failed hlost => exact hlost.elim

end ClientRel

/-! ## The proxy -/

namespace ControlRel

variable {n : Nat} {c : Control n} {x : ProxyWorker n} {got sofar : List Bytes}
  {todo : Fin n → Todo} {taken : Fin n → List Bytes}

theorem sofar_idle (h : ControlRel False c .idle got sofar todo taken) : sofar = [] := by
  cases h with
  | idle hc => rfl
  | gone hlost hc => exact hlost.elim

/-- The proxy writes to a shard where it dispatches a command or asks all. -/
theorem todo_eq (h : ControlRel False c x got sofar todo taken) {j : Fin n}
    (hj : ∀ cmd, x ≠ .dispatch cmd j) (hall : ∀ keyPrefix next, x ≠ .fanOut keyPrefix next) :
    todo j = none := by
  cases h with
  | dispatch =>
    rename_i cmd i rest
    have hne : j ≠ i := by
      rintro rfl
      exact hj cmd rfl
    exact Function.update_of_ne hne _ _
  | fanOut hsize => exact absurd rfl (hall _ _)
  | gone hlost hc => exact hlost.elim
  | idle hc => rfl
  | forward => rfl
  | collect hgot => rfl
  | respond hrest hps hdata => rfl

end ControlRel

/-! ## The messages -/

namespace Session.Shape

variable {n : Nat} {t : Session n} {st : Stage}

/-- Between two calls nothing is anywhere. -/
theorem of_none (h : t.Shape st) (hp : t.pending = none) :
    t.up = [] ∧ t.proxy = .idle ∧ t.Quiet := by
  cases h with
  | idle hp' hu hx hd hl => exact ⟨hu, hx, hl⟩
  | _ => simp_all

/-- The proxy has not read the command. -/
theorem of_up (h : t.Shape st) (hu : t.up ≠ []) : t.proxy = .idle ∧ t.down = [] := by
  cases h with
  | requested hc hp hu' hx hd hl => exact ⟨hx, hd⟩
  | scanRequested hp hu' hx hd hl => exact ⟨hx, hd⟩
  | _ => simp_all

/-- A call on a single key uses one lane. -/
theorem of_key (h : t.Shape st) {c : Command} {key : Bytes} (hp : t.pending = some c)
    (hc : c.key? = some key) :
    (∀ keyPrefix next, t.proxy ≠ .fanOut keyPrefix next) ∧
      ∃ used : Fin n → Prop, (∀ i j, used i → used j → i = j) ∧
        ∀ j, ¬ used j → (t.lane j).At .quiet ∧ ∀ cmd, t.proxy ≠ .dispatch cmd j := by
  have scan : ∀ keyPrefix, t.pending ≠ some (.getAll keyPrefix) := by
    intro keyPrefix heq
    rw [hp] at heq
    cases heq
    cases hc
  have none : ∀ {l : Fin n → Prop}, (∀ j, l j) → ∃ used : Fin n → Prop,
      (∀ i j, used i → used j → i = j) ∧ ∀ j, ¬ used j → l j :=
    fun hl => ⟨fun _ => False, fun _ _ h => h.elim, fun j _ => hl j⟩
  have one : ∀ {l : Fin n → Prop} (i : Fin n), (∀ j, j ≠ i → l j) → ∃ used : Fin n → Prop,
      (∀ i j, used i → used j → i = j) ∧ ∀ j, ¬ used j → l j :=
    fun i hl => ⟨(· = i), fun _ _ h h' => h.trans h'.symm, hl⟩
  cases h with
  | idle hp' hu hx hd hl => exact ⟨by simp [hx], none fun j => ⟨hl j, by simp [hx]⟩⟩
  | requested hc hp' hu hx hd hl => exact ⟨by simp [hx], none fun j => ⟨hl j, by simp [hx]⟩⟩
  | dispatch hc hi hp' hu hx hd hl =>
    rename_i c' key' i
    refine ⟨by simp [hx], one i fun j hj => ⟨hl j, ?_⟩⟩
    intro cmd heq
    rw [hx] at heq
    cases heq
    exact hj rfl
  | asked hc hi hp' hu hx hd hl => exact ⟨by simp [hx], one _ fun j hj => ⟨hl.2 j hj, by simp [hx]⟩⟩
  | answered hc hp' hu hx hd hl => exact ⟨by simp [hx], one _ fun j hj => ⟨hl.2 j hj, by simp [hx]⟩⟩
  | relay hc hp' hu hx hd hl => exact ⟨by simp [hx], none fun j => ⟨hl j, by simp [hx]⟩⟩
  | arrived hc hp' hu hx hd hl => exact ⟨by simp [hx], none fun j => ⟨hl j, by simp [hx]⟩⟩
  | scanRequested hp' hu hx hd hl => exact absurd hp' (scan _)
  | fanOut hp' hu hx hd hasked hl => exact absurd hp' (scan _)
  | collect hp' hu hx hd hl hasked => exact absurd hp' (scan _)
  | respond hp' hu hx hd hl => exact absurd hp' (scan _)
  | scanned hp' hu hx hd hl => exact absurd hp' (scan _)

end Session.Shape

/-! ## The session -/

namespace ByteSession.Matches

variable {n : Nat} {s : ByteSession n} {t : Session n} {left sofar got : List Bytes}
  {todo : Fin n → Todo} {taken : Fin n → List Bytes} {st : Session.Stage}
  (h : s.Matches False t left sofar got todo taken)

include h

theorem lane_empty {j : Fin n} (hl : (t.lane j).At .quiet) (hj : ∀ cmd, t.proxy ≠ .dispatch cmd j)
    (hall : ∀ keyPrefix next, t.proxy ≠ .fanOut keyPrefix next) : (s.lane j).wires.Empty :=
  (h.lanes j).empty hl (h.control.todo_eq hj hall)

/-- While the command of the client is under way, nothing is on its way back. -/
theorem client_way (hshape : t.Shape st) : s.up = [] ∨ s.down = [] := by
  by_cases hu : t.up = []
  · left
    have hup := h.up
    rw [hu] at hup
    exact (List.append_eq_nil_iff.1 hup.nil).2
  · right
    obtain ⟨hx, hd⟩ := hshape.of_up hu
    have hcontrol := h.control
    rw [hx] at hcontrol
    exact h.client.nothing hd hcontrol.sofar_idle

theorem idle_empty (hshape : t.Shape st) (hidle : s.client.control = .idle) :
    s.wires.Empty ∧ ∀ i, (s.lane i).wires.Empty := by
  have hclient := h.client
  rw [hidle] at hclient
  obtain ⟨hp, hdown⟩ := hclient.of_idle
  obtain ⟨hu, hx, hl⟩ := hshape.of_none hp
  have hup := h.up
  rw [hu] at hup
  refine ⟨⟨(List.append_eq_nil_iff.1 hup.nil).2, hdown⟩, fun i => ?_⟩
  exact h.lane_empty (hl i) (by simp [hx]) (by simp [hx])

theorem takesTurns (hshape : t.Shape st) : s.TakesTurns where
  client := ⟨h.client_way hshape, h.up.packet, h.client.packet h.begins⟩
  shard i := (h.lanes i).oneWay
  idle := h.idle_empty hshape
  key c key hcall hkey i j hi hj := by
    have hp := h.client.pending_eq
    rw [hcall] at hp
    obtain ⟨hall, used, hone, hquiet⟩ := hshape.of_key hp hkey
    have isUsed : ∀ i, ¬ (s.lane i).wires.Empty → used i := by
      intro i hi
      by_contra hnot
      exact hi (h.lane_empty (hquiet i hnot).1 (hquiet i hnot).2 hall)
    exact hone i j (isUsed i hi) (isUsed j hj)

end ByteSession.Matches

/-! ## Every run -/

namespace ByteCluster

variable {Cl : Type} [DecidableEq Cl] {n : Nat} {e : ByteEnv} {s : ByteCluster Cl n} {cl : Cl}

/-- **The threads of a session take turns** as long as none of its own calls of `read` and `write`
fails. -/
theorem takes_turns {db : Fin n → Store} {as : List (Action Cl n)}
    (h : Machine.run (step e) (init db) as = some s)
    (hno : ¬ Meets (step e) (fun s a => ¬ (Admits e s a ∧ ∀ b, a = .session cl b → b.Succeeds))
      (init db) as) : (s.session cl).TakesTurns := by
  have hno' : ¬ Meets (step e) (fun s a => ¬ Covered e (· ≠ cl) s a) (init db) as := by
    simpa only [covered_ne] using hno
  obtain ⟨t, ht, hrel⟩ := (simulates e (· ≠ cl) db).run (rel_init db) h hno'
  obtain ⟨left, sofar, got, todo, taken, hm⟩ := hrel.session cl
  rw [eq_false (fun hne => hne rfl : ¬ cl ≠ cl)] at hm
  obtain ⟨st, hshape, -⟩ := Cluster.answers ht.reachable cl
  exact hm.takesTurns hshape

/-- The command of a Get is on its way to the proxy. -/
theorem takes_turns_get :
    ∃ s, Machine.run (step plainEnv) (init fun _ => ∅)
        [(.call true (.get [116, 95, 49]) : Action Bool 2), .session true (.client .done .done)] =
          some s ∧
      (s.session true).TakesTurns := by
  have hrun : ∃ s, Machine.run (step plainEnv) (init fun _ => ∅)
      [(.call true (.get [116, 95, 49]) : Action Bool 2), .session true (.client .done .done)] =
        some s := by
    rw [Machine.run, call_get]
    exact ⟨_, rfl⟩
  obtain ⟨s, hs⟩ := hrun
  refine ⟨s, hs, takes_turns hs ?_⟩
  refine not_meets_cons (not_not.2 ⟨call_get_admitted _, fun _ heq => absurd heq call_ne_session⟩)
    (call_get _) ?_
  refine not_meets_cons (not_not.2 ⟨trivial, ?_⟩) rfl id
  intro b heq
  cases heq
  exact ⟨rfl, rfl⟩

end ByteCluster

end SqpKv
