import SqpKv.Lib.Bytes

/-!
# Receivers of a byte stream

A loop around `read(fd, buf, n)` is a `Receiver`: between two reads it asks for
`request s` bytes, and `deliver s` makes the next state, or the result, of what
the read gave.  `run` hands it a list of answers:

    run s answers = waiting s'          every answer was used and it reads again
                  = returned r unread   it returned r and left `unread` to the next reader

A reliable stream cuts its bytes into chunks as a policy allows: `anyPrefix` is
what `read` promises, `greedy` a stream whose bytes have all arrived.
-/

namespace Wire

/-- What one `read` gives: the bytes it stored (none at the end of the stream), or an error. -/
inductive ReadResult
  | data (bs : Bytes)
  | failed

/-- A receiver with states `σ` between its reads and results `ρ`. -/
structure Receiver (σ ρ : Type) where
  request : σ → Nat
  deliver : σ → ReadResult → σ ⊕ ρ

inductive Outcome (σ ρ : Type)
  | waiting (s : σ)
  | returned (r : ρ) (unread : List ReadResult)

/-- How a stream may answer a request, given how many bytes are still to come. -/
abbrev Policy := (request available got : Nat) → Prop

/-- Any number of bytes, but some, and at most as many as requested. -/
def anyPrefix : Policy := fun request _ got => 0 < got ∧ got ≤ request

/-- Everything is there: as many bytes as requested, or all. -/
def greedy : Policy := fun request available got => got = min request available

namespace Receiver

variable {σ ρ : Type} (m : Receiver σ ρ)

def run : σ → List ReadResult → Outcome σ ρ
  | s, [] => .waiting s
  | s, x :: xs =>
    match m.deliver s x with
    | .inl s' => run s' xs
    | .inr r => .returned r xs

/-- The run on a reliable stream that arrives in the chunks `cs`. -/
def feed (s : σ) (cs : List Bytes) : Outcome σ ρ := m.run s (cs.map .data)

/-- It returns, having read every chunk and asked for no more. -/
def ConsumesAll (s : σ) (cs : List Bytes) : Prop := ∃ r, m.feed s cs = .returned r []

/-- Each chunk answers the request it meets, until the receiver returns. -/
def Serves (pol : Policy) : σ → List Bytes → Prop
  | _, [] => True
  | s, c :: cs =>
    pol (m.request s) (c ++ cs.flatten).length c.length ∧
      ∀ s', m.deliver s (.data c) = .inl s' → Serves pol s' cs

/-- `cs` is a way a stream that obeys `pol` delivers `bytes`. -/
structure Delivers (pol : Policy) (s : σ) (bytes : Bytes) (cs : List Bytes) : Prop where
  all : cs.flatten = bytes
  nonempty : ∀ c ∈ cs, c ≠ []
  serves : m.Serves pol s cs

theorem feed_cons_of_inl {s s' : σ} {c : Bytes} (h : m.deliver s (.data c) = .inl s')
    (cs : List Bytes) : m.feed s (c :: cs) = m.feed s' cs := by
  simp only [feed, List.map_cons, run, h]

theorem feed_cons_of_inr {s : σ} {r : ρ} {c : Bytes} (h : m.deliver s (.data c) = .inr r)
    (cs : List Bytes) : m.feed s (c :: cs) = .returned r (cs.map .data) := by
  simp only [feed, List.map_cons, run, h]

/-- A receiver that has returned leaves what comes later to the next reader. -/
theorem feed_append_of_returned {s : σ} {cs : List Bytes} {r : ρ} (h : m.feed s cs = .returned r [])
    (rest : List Bytes) : m.feed s (cs ++ rest) = .returned r (rest.map .data) := by
  induction cs generalizing s with
  | nil => cases h
  | cons c cs ih =>
    rcases hd : m.deliver s (.data c) with s' | r'
    · rw [m.feed_cons_of_inl hd] at h
      rw [List.cons_append, m.feed_cons_of_inl hd, ih h]
    · rw [m.feed_cons_of_inr hd] at h
      cases cs with
      | nil =>
        cases h
        exact m.feed_cons_of_inr hd rest
      | cons d cs => cases h

theorem not_consumesAll_nil (s : σ) : ¬ m.ConsumesAll s [] := by
  rintro ⟨r, h⟩
  cases h

theorem consumesAll_cons_of_inl {s s' : σ} {c : Bytes} (h : m.deliver s (.data c) = .inl s')
    (cs : List Bytes) : m.ConsumesAll s (c :: cs) ↔ m.ConsumesAll s' cs := by
  unfold ConsumesAll
  rw [m.feed_cons_of_inl h]

theorem consumesAll_cons_of_inr {s : σ} {r : ρ} {c : Bytes} (h : m.deliver s (.data c) = .inr r)
    (cs : List Bytes) : m.ConsumesAll s (c :: cs) ↔ cs = [] := by
  unfold ConsumesAll
  rw [m.feed_cons_of_inr h]
  constructor
  · rintro ⟨r', h'⟩
    cases cs with
    | nil => rfl
    | cons c' cs => cases h'
  · rintro rfl
    exact ⟨r, rfl⟩

/-! ## What a run keeps -/

/-- Each answer meets `ok` for the request it answers, until the receiver returns. -/
def Answered (ok : Nat → ReadResult → Prop) : σ → List ReadResult → Prop
  | _, [] => True
  | s, x :: xs => ok (m.request s) x ∧ ∀ s', m.deliver s x = .inl s' → Answered ok s' xs

/-- The bytes of a list of answers. -/
def bytesRead : List ReadResult → Bytes
  | [] => []
  | .data bs :: xs => bs ++ bytesRead xs
  | .failed :: xs => bytesRead xs

theorem bytesRead_append (xs ys : List ReadResult) :
    bytesRead (xs ++ ys) = bytesRead xs ++ bytesRead ys := by
  induction xs with
  | nil => rfl
  | cons x xs ih =>
    cases x with
    | data bs => rw [List.cons_append, bytesRead, bytesRead, ih, List.append_assoc]
    | failed => rw [List.cons_append, bytesRead, bytesRead, ih]

/-- The answers to the first reads. -/
theorem Answered.take {ok : Nat → ReadResult → Prop} {s : σ} {xs ys : List ReadResult}
    (h : m.Answered ok s (xs ++ ys)) : m.Answered ok s xs := by
  induction xs generalizing s with
  | nil => trivial
  | cons x xs ih =>
    refine ⟨h.1, ?_⟩
    intro s' hs'
    exact ih (h.2 s' hs')

section Run

variable {ok : Nat → ReadResult → Prop} {I : σ → List ReadResult → Prop}
  (keep : ∀ s used x s', I s used → ok (m.request s) x → m.deliver s x = .inl s' →
    I s' (used ++ [x]))

include keep

/-- What every read that goes on keeps holds before each read. -/
theorem run_waiting {s s' : σ} {used xs : List ReadResult} (hs : I s used) (hxs : m.Answered ok s xs)
    (h : m.run s xs = .waiting s') : I s' (used ++ xs) := by
  induction xs generalizing s used with
  | nil =>
    cases h
    rwa [List.append_nil]
  | cons x xs ih =>
    rw [run] at h
    rcases hd : m.deliver s x with t | r
    · rw [hd] at h
      have hnext := ih (keep s used x t hs hxs.1 hd) (hxs.2 t hd) h
      rwa [List.append_assoc] at hnext
    · rw [hd] at h
      cases h

/-- The last read, from a state that the invariant holds of. -/
theorem run_returned {s : σ} {used xs unread : List ReadResult} {r : ρ} (hs : I s used)
    (hxs : m.Answered ok s xs) (h : m.run s xs = .returned r unread) :
    ∃ front x t, xs = front ++ x :: unread ∧ I t (used ++ front) ∧ ok (m.request t) x ∧
      m.deliver t x = .inr r := by
  induction xs generalizing s used with
  | nil => cases h
  | cons x xs ih =>
    rw [run] at h
    rcases hd : m.deliver s x with t | r'
    · rw [hd] at h
      obtain ⟨front, y, u, rfl, hu, hy, hret⟩ := ih (keep s used x t hs hxs.1 hd) (hxs.2 t hd) h
      rw [List.append_assoc] at hu
      exact ⟨x :: front, y, u, rfl, hu, hy, hret⟩
    · rw [hd] at h
      cases h
      exact ⟨[], x, s, rfl, by rwa [List.append_nil], hxs.1, hd⟩

end Run

variable {m}

/-- The first chunk of a delivery. -/
theorem Delivers.cons {pol : Policy} {s : σ} {c : Bytes} {cs : List Bytes} {bytes : Bytes}
    (h : m.Delivers pol s bytes (c :: cs)) :
    c ≠ [] ∧ pol (m.request s) bytes.length c.length ∧ bytes = c ++ cs.flatten := by
  refine ⟨h.nonempty c List.mem_cons_self, ?_, h.all.symm⟩
  rw [← h.all]
  exact h.serves.1

/-- What is left of a delivery when the receiver goes on. -/
theorem Delivers.tail {pol : Policy} {s s' : σ} {c : Bytes} {cs : List Bytes} {bytes : Bytes}
    (h : m.Delivers pol s bytes (c :: cs)) (hs : m.deliver s (.data c) = .inl s') :
    m.Delivers pol s' cs.flatten cs :=
  ⟨rfl, fun d hd => h.nonempty d (List.mem_cons_of_mem _ hd), h.serves.2 s' hs⟩

theorem Delivers.length_pos {pol : Policy} {s : σ} {c : Bytes} {cs : List Bytes} {bytes : Bytes}
    (h : m.Delivers pol s bytes (c :: cs)) : 0 < c.length :=
  List.length_pos_of_ne_nil h.cons.1

theorem Delivers.rest_length {pol : Policy} {s : σ} {c : Bytes} {cs : List Bytes} {bytes : Bytes}
    (h : m.Delivers pol s bytes (c :: cs)) : c.length + cs.flatten.length = bytes.length := by
  rw [h.cons.2.2, List.length_append]

/-- A first chunk that has everything is the only one. -/
theorem Delivers.rest_eq_nil {pol : Policy} {s : σ} {c : Bytes} {cs : List Bytes} {bytes : Bytes}
    (h : m.Delivers pol s bytes (c :: cs)) (hc : c.length = bytes.length) : cs = [] := by
  have hrest := h.rest_length
  have hflat : cs.flatten = [] := List.length_eq_zero_iff.1 (by omega)
  apply List.eq_nil_iff_forall_not_mem.2
  intro d hd
  exact h.nonempty d (List.mem_cons_of_mem _ hd) (List.flatten_eq_nil_iff.1 hflat d hd)

/-- Everything in one chunk, after which the receiver returns. -/
theorem delivers_single {pol : Policy} {s : σ} {bytes : Bytes} (hne : bytes ≠ [])
    (hpol : pol (m.request s) bytes.length bytes.length)
    (hret : ∀ s', m.deliver s (.data bytes) ≠ .inl s') : m.Delivers pol s bytes [bytes] := by
  refine ⟨List.flatten_singleton, by simpa using hne, ?_, fun s' hs' => absurd hs' (hret s')⟩
  rw [List.flatten_nil, List.append_nil]
  exact hpol

/-- A receiver that always asks for something can be served everything that has arrived. -/
theorem exists_greedy {I : σ → Prop} (hpos : ∀ s, I s → 0 < m.request s)
    (hstep : ∀ s c s', I s → 0 < c.length → c.length ≤ m.request s →
      m.deliver s (.data c) = .inl s' → I s') {s : σ} (hs : I s) (bytes : Bytes) :
    ∃ cs, m.Delivers greedy s bytes cs := by
  induction hn : bytes.length using Nat.strongRecOn generalizing s bytes with
  | _ n ih =>
    by_cases hb : bytes = []
    · subst hb
      exact ⟨[], rfl, by simp, trivial⟩
    · have hlen : 0 < bytes.length := List.length_pos_of_ne_nil hb
      have hreq := hpos s hs
      let c := bytes.take (m.request s)
      have hc : c.length = min (m.request s) bytes.length := List.length_take
      have hcne : c ≠ [] := List.ne_nil_of_length_pos (by omega)
      have hjoin : c ++ bytes.drop (m.request s) = bytes := List.take_append_drop _ _
      have hpol : greedy (m.request s) (c ++ bytes.drop (m.request s)).length c.length := by
        rw [hjoin]
        exact hc
      rcases hd : m.deliver s (.data c) with s' | r
      · -- the receiver goes on, the rest is shorter
        have hshort : (bytes.drop (m.request s)).length < n := by
          rw [List.length_drop]
          omega
        obtain ⟨cs, hall, hne, hserves⟩ :=
          ih _ hshort (hstep s c s' hs (by omega) (by omega) hd) (bytes.drop (m.request s)) rfl
        refine ⟨c :: cs, by rw [List.flatten_cons, hall, hjoin], ?_, ?_, ?_⟩
        · rintro d (_ | ⟨_, hd'⟩)
          · exact hcne
          · exact hne d hd'
        · rw [hall]
          exact hpol
        · intro s'' hs''
          rw [hd] at hs''
          cases hs''
          exact hserves
      · by_cases hrest : bytes.drop (m.request s) = []
        · rw [hrest, List.append_nil] at hjoin hpol
          refine ⟨[c], by rw [List.flatten_singleton, hjoin], by simpa using hcne, ?_, ?_⟩
          · rw [List.flatten_nil, List.append_nil]
            exact hpol
          · intro s' hs'
            rw [hd] at hs'
            cases hs'
        · refine ⟨[c, bytes.drop (m.request s)], by simp [hjoin], by simp [hcne, hrest], ?_, ?_⟩
          · rw [List.flatten_singleton]
            exact hpol
          · intro s' hs'
            rw [hd] at hs'
            cases hs'

/-- A receiver that returns exactly on the chunks in `stop`, from the states in `I` on: it
reads everything when the last chunk is the only one in `stop`. -/
theorem consumesAll_iff {I : σ → Prop} {stop : Bytes → Prop}
    (hgo : ∀ s c, I s → ¬ stop c → ∃ s', m.deliver s (.data c) = .inl s' ∧ I s')
    (hstop : ∀ s c, I s → stop c → ∃ r, m.deliver s (.data c) = .inr r) {s : σ} (hs : I s)
    (cs : List Bytes) :
    m.ConsumesAll s cs ↔ ∃ front last, cs = front ++ [last] ∧ (∀ c ∈ front, ¬ stop c) ∧ stop last := by
  induction cs generalizing s with
  | nil => simpa using m.not_consumesAll_nil s
  | cons c cs ih =>
    by_cases hc : stop c
    · obtain ⟨r, hr⟩ := hstop s c hs hc
      rw [m.consumesAll_cons_of_inr hr]
      constructor
      · rintro rfl
        exact ⟨[], c, rfl, by simp, hc⟩
      · rintro ⟨_ | ⟨d, front⟩, last, heq, hfront, -⟩
        · exact (List.cons.inj heq).2
        · obtain ⟨rfl, -⟩ := List.cons.inj heq
          exact absurd hc (hfront c List.mem_cons_self)
    · obtain ⟨s', hs', hI⟩ := hgo s c hs hc
      rw [m.consumesAll_cons_of_inl hs', ih hI]
      constructor
      · rintro ⟨front, last, rfl, hfront, hlast⟩
        exact ⟨c :: front, last, rfl, by simpa using ⟨hc, hfront⟩, hlast⟩
      · rintro ⟨_ | ⟨d, front⟩, last, heq, hfront, hlast⟩
        · obtain ⟨rfl, -⟩ := List.cons.inj heq
          exact absurd hlast hc
        · obtain ⟨rfl, rfl⟩ := List.cons.inj heq
          exact ⟨front, last, rfl, fun e he => hfront e (List.mem_cons_of_mem _ he), hlast⟩

end Receiver

end Wire
