import SqpKv.Lib.ReadLoop

/-!
# Receivers on a stream that arrives as it likes

`drain` runs a receiver on the bytes a stream will bring.  Each `read` gets some
of what has arrived, at most as much as it asked for; or it fails, or finds the
stream closed:

    drain s stream arrivals = some (r, rest)     it returned r and left rest unread
                            = none               it waits in a read

When every read asks for `n` bytes, what they give depends on the stream alone
(`reads`), and `drain` is `run` on that.
-/

namespace Wire

/-- How a `read` goes: it fails, it finds the stream closed, or `k + 1` bytes have arrived. -/
inductive Arrival
  | failed
  | closed
  | bytes (k : Nat)

/-- `read(fd, buf, n)`: what it gives of the stream, and what is left.  It waits while there is
nothing to come. -/
def Arrival.read (n : Nat) (stream : Bytes) : Arrival → Option (ReadResult × Bytes)
  | .failed => some (.failed, stream)
  | .closed => some (.data [], stream)
  | .bytes k =>
    if stream = [] then none
    else some (.data (stream.take (min (k + 1) n)), stream.drop (min (k + 1) n))

/-- What reads of `n` bytes give, one after the other. -/
def reads (n : Nat) : Bytes → List Arrival → List ReadResult
  | _, [] => []
  | stream, a :: as =>
    match a.read n stream with
    | none => []
    | some (x, rest) => x :: reads n rest as

namespace Receiver

variable {σ ρ : Type} (m : Receiver σ ρ)

def drain : σ → Bytes → List Arrival → Option (ρ × Bytes)
  | _, _, [] => none
  | s, stream, a :: as =>
    match a.read (m.request s) stream with
    | none => none
    | some (x, rest) =>
      match m.deliver s x with
      | .inl s' => drain s' rest as
      | .inr r => some (r, rest)

variable {m}

end Receiver

end Wire
