import SqpKv.Protocol.Content
import SqpKv.Lib.Split

/-!
# The command loop of the client (src/client/main.cc)

The branch of a line is chosen by the word it begins with, the arguments are the
tokens between its blanks.  A line may begin with the word of a command and have
too few tokens; `parts[i]` is then outside of `parts`.  The tokens that are used
are there exactly in a `Complete` line                               (parseLine_ok_iff)
-/

namespace SqpKv

open Wire

/-- A blank. -/
def blank : UInt8 := 32

/-- `"get all "` -/
def getAllWord : Bytes := [103, 101, 116, 32, 97, 108, 108, 32]

/-- `"get "` -/
def getWord : Bytes := [103, 101, 116, 32]

/-- `"put "` -/
def putWord : Bytes := [112, 117, 116, 32]

/-- `"delete "` -/
def deleteWord : Bytes := [100, 101, 108, 101, 116, 101, 32]

/-- `"quit"` -/
def quitWord : Bytes := [113, 117, 105, 116]

/-- What a line makes the client do: call the connection, stop, or show "Unsupported syntax". -/
inductive Input
  | command (c : Command)
  | quit
  | unsupported
deriving DecidableEq

/-- `parts[i]`. -/
def token (parts : List Bytes) (i : Nat) : Except Fault Bytes :=
  match parts[i]? with
  | some part => .ok part
  | none => .error .outOfBounds

/-- The body of the loop up to the call. -/
def parseLine (line : Bytes) : Except Fault Input :=
  if find getAllWord line = some 0 then do
    let parts := split blank line
    return .command (.getAll (← token parts 2))
  else if find getWord line = some 0 then do
    let parts := split blank line
    return .command (.get (← token parts 1))
  else if find putWord line = some 0 then do
    let parts := split blank line
    return .command (.put (← token parts 1) (← token parts 2))
  else if find deleteWord line = some 0 then do
    let parts := split blank line
    return .command (.delete (← token parts 1))
  else if find quitWord line = some 0 then
    return .quit
  else
    return .unsupported

/-- The loop on the lines of the standard input, each with whether the status of its call is Eof:
the commands it sends, up to `quit` or to the loss of the server. -/
def mainLoop : List (Bytes × Bool) → Except Fault (List Command)
  | [] => .ok []
  | (line, eof) :: lines => do
    match ← parseLine line with
    | .command c => if eof then return [c] else return c :: (← mainLoop lines)
    | .quit => return []
    | .unsupported => mainLoop lines

/-! ## The tokens of a line -/

theorem token_ok_iff {parts : List Bytes} {i : Nat} :
    (∃ part, token parts i = .ok part) ↔ i < parts.length := by
  unfold token
  constructor
  · rintro ⟨part, h⟩
    split at h
    · next hpart => exact (List.getElem?_eq_some_iff.1 hpart).1
    · cases h
  · intro h
    rw [List.getElem?_eq_getElem h]
    exact ⟨_, rfl⟩

theorem split_getAll (rest : Bytes) :
    split blank (getAllWord ++ rest) = [103, 101, 116] :: [97, 108, 108] :: split blank rest := by
  have hget := split_append (d := blank) (a := [103, 101, 116]) (by decide) ([97, 108, 108, 32] ++ rest)
  have hall := split_append (d := blank) (a := [97, 108, 108]) (by decide) rest
  exact hget.trans (congrArg _ hall)

theorem split_get (rest : Bytes) :
    split blank (getWord ++ rest) = [103, 101, 116] :: split blank rest :=
  split_append (d := blank) (a := [103, 101, 116]) (by decide) rest

theorem split_put (rest : Bytes) :
    split blank (putWord ++ rest) = [112, 117, 116] :: split blank rest :=
  split_append (d := blank) (a := [112, 117, 116]) (by decide) rest

theorem split_delete (rest : Bytes) :
    split blank (deleteWord ++ rest) = [100, 101, 108, 101, 116, 101] :: split blank rest :=
  split_append (d := blank) (a := [100, 101, 108, 101, 116, 101]) (by decide) rest

/-! ## The branch of a line -/

theorem find_ne_zero {word line : Bytes} (h : ¬ word <+: line) : find word line ≠ some 0 :=
  mt find_eq_zero.1 h

/-- A line that begins with one word does not begin with another. -/
theorem not_begins {word word' : Bytes} (h : ¬ word <+: word') (h' : ¬ word' <+: word) (rest : Bytes) :
    ¬ word <+: word' ++ rest := by
  intro hbegins
  rcases List.prefix_or_prefix_of_prefix hbegins (List.prefix_append word' rest) with hp | hp
  · exact h hp
  · exact h' hp

theorem parseLine_getAll (rest : Bytes) :
    parseLine (getAllWord ++ rest) =
      (do return .command (.getAll (← token (split blank rest) 0))) := by
  have h : find getAllWord (getAllWord ++ rest) = some 0 := find_eq_zero.2 (List.prefix_append _ _)
  rw [parseLine, if_pos h, split_getAll]
  rfl

theorem parseLine_get {rest : Bytes} (hall : ¬ getAllWord <+: getWord ++ rest) :
    parseLine (getWord ++ rest) = (do return .command (.get (← token (split blank rest) 0))) := by
  have h : find getWord (getWord ++ rest) = some 0 := find_eq_zero.2 (List.prefix_append _ _)
  rw [parseLine, if_neg (find_ne_zero hall), if_pos h, split_get]
  rfl

theorem parseLine_put (rest : Bytes) :
    parseLine (putWord ++ rest) =
      (do return .command (.put (← token (split blank rest) 0) (← token (split blank rest) 1))) := by
  have hall : ¬ getAllWord <+: putWord ++ rest := not_begins (by decide) (by decide) rest
  have hget : ¬ getWord <+: putWord ++ rest := not_begins (by decide) (by decide) rest
  have h : find putWord (putWord ++ rest) = some 0 := find_eq_zero.2 (List.prefix_append _ _)
  rw [parseLine, if_neg (find_ne_zero hall), if_neg (find_ne_zero hget), if_pos h, split_put]
  rfl

theorem parseLine_delete (rest : Bytes) :
    parseLine (deleteWord ++ rest) =
      (do return .command (.delete (← token (split blank rest) 0))) := by
  have hall : ¬ getAllWord <+: deleteWord ++ rest := not_begins (by decide) (by decide) rest
  have hget : ¬ getWord <+: deleteWord ++ rest := not_begins (by decide) (by decide) rest
  have hput : ¬ putWord <+: deleteWord ++ rest := not_begins (by decide) (by decide) rest
  have h : find deleteWord (deleteWord ++ rest) = some 0 := find_eq_zero.2 (List.prefix_append _ _)
  rw [parseLine, if_neg (find_ne_zero hall), if_neg (find_ne_zero hget), if_neg (find_ne_zero hput),
    if_pos h, split_delete]
  rfl

/-- No word of a command: no token is used. -/
theorem parseLine_other {line : Bytes} (hall : ¬ getAllWord <+: line) (hget : ¬ getWord <+: line)
    (hput : ¬ putWord <+: line) (hdelete : ¬ deleteWord <+: line) :
    parseLine line = .ok (if quitWord <+: line then .quit else .unsupported) := by
  rw [parseLine, if_neg (find_ne_zero hall), if_neg (find_ne_zero hget), if_neg (find_ne_zero hput),
    if_neg (find_ne_zero hdelete)]
  by_cases h : quitWord <+: line
  · rw [if_pos (find_eq_zero.2 h), if_pos h]
    rfl
  · rw [if_neg (find_ne_zero h), if_neg h]
    rfl

/-! ## Complete lines -/

/-- Every argument of the command that the line begins with has a token: something stands behind
the word, and behind the key of a Put. -/
structure Complete (line : Bytes) : Prop where
  getAll : ∀ rest, line = getAllWord ++ rest → rest ≠ []
  get : ∀ rest, line = getWord ++ rest → rest ≠ []
  put : ∀ rest, line = putWord ++ rest →
    ∃ key value, blank ∉ key ∧ rest = key ++ blank :: value ∧ value ≠ []
  delete : ∀ rest, line = deleteWord ++ rest → rest ≠ []

section

variable {P : Bytes → Prop} {word rest : Bytes}

/-- What is behind the word, for the word that the line begins with. -/
theorem behind_own (h : P rest) : ∀ rest', word ++ rest = word ++ rest' → P rest' := by
  intro rest' heq
  rwa [← List.append_cancel_left heq]

/-- For a word that it does not begin with, there is nothing to show. -/
theorem behind_other {line : Bytes} (h : ¬ word <+: line) : ∀ rest, line = word ++ rest → P rest := by
  intro rest heq
  exact absurd ⟨rest, heq.symm⟩ h

end

theorem complete_getAll {rest : Bytes} : Complete (getAllWord ++ rest) ↔ rest ≠ [] := by
  constructor
  · intro h
    exact h.getAll rest rfl
  · intro hne
    constructor
    · exact behind_own hne
    · -- it begins with "get " too, and the rest is "all " and more
      rintro rest' heq rfl
      have hlen := congrArg List.length heq
      simp [getAllWord, getWord] at hlen
    · exact behind_other (not_begins (by decide) (by decide) rest)
    · exact behind_other (not_begins (by decide) (by decide) rest)

theorem complete_get {rest : Bytes} (hall : ¬ getAllWord <+: getWord ++ rest) :
    Complete (getWord ++ rest) ↔ rest ≠ [] := by
  constructor
  · intro h
    exact h.get rest rfl
  · intro hne
    constructor
    · exact behind_other hall
    · exact behind_own hne
    · exact behind_other (not_begins (by decide) (by decide) rest)
    · exact behind_other (not_begins (by decide) (by decide) rest)

theorem complete_put {rest : Bytes} :
    Complete (putWord ++ rest) ↔
      ∃ key value, blank ∉ key ∧ rest = key ++ blank :: value ∧ value ≠ [] := by
  constructor
  · intro h
    exact h.put rest rfl
  · intro hargs
    constructor
    · exact behind_other (not_begins (by decide) (by decide) rest)
    · exact behind_other (not_begins (by decide) (by decide) rest)
    · exact behind_own hargs
    · exact behind_other (not_begins (by decide) (by decide) rest)

theorem complete_delete {rest : Bytes} : Complete (deleteWord ++ rest) ↔ rest ≠ [] := by
  constructor
  · intro h
    exact h.delete rest rfl
  · intro hne
    constructor
    · exact behind_other (not_begins (by decide) (by decide) rest)
    · exact behind_other (not_begins (by decide) (by decide) rest)
    · exact behind_other (not_begins (by decide) (by decide) rest)
    · exact behind_own hne

theorem complete_other {line : Bytes} (hall : ¬ getAllWord <+: line) (hget : ¬ getWord <+: line)
    (hput : ¬ putWord <+: line) (hdelete : ¬ deleteWord <+: line) : Complete line := by
  constructor
  · exact behind_other hall
  · exact behind_other hget
  · exact behind_other hput
  · exact behind_other hdelete

/-- A branch that uses one token. -/
theorem return_token {parts : List Bytes} {i : Nat} (f : Bytes → Input) :
    (∃ input, (do return f (← token parts i)) = Except.ok (ε := Fault) input) ↔ i < parts.length := by
  rw [← token_ok_iff]
  constructor
  · rintro ⟨input, h⟩
    obtain ⟨part, hpart, -⟩ := bind_eq_ok.1 h
    exact ⟨part, hpart⟩
  · rintro ⟨part, hpart⟩
    exact ⟨f part, bind_eq_ok.2 ⟨part, hpart, rfl⟩⟩

/-- The branch of a Put uses two. -/
theorem return_tokens {parts : List Bytes} :
    (∃ input, (do return Input.command (.put (← token parts 0) (← token parts 1))) =
      Except.ok (ε := Fault) input) ↔ 1 < parts.length := by
  constructor
  · rintro ⟨input, h⟩
    obtain ⟨key, -, h⟩ := bind_eq_ok.1 h
    exact (return_token fun part => .command (.put key part)).1 ⟨input, h⟩
  · intro h
    obtain ⟨key, hkey⟩ := token_ok_iff.2 (Nat.lt_trans Nat.zero_lt_one h)
    exact exists_bind_ok hkey ((return_token fun part => .command (.put key part)).2 h)

/-- **Which lines are parsed.**  Every token that the branch of a line uses is in `parts`, or the
line is rejected, exactly when the line is complete. -/
theorem parseLine_ok_iff (line : Bytes) : (∃ input, parseLine line = .ok input) ↔ Complete line := by
  by_cases hall : getAllWord <+: line
  · obtain ⟨rest, rfl⟩ := hall
    rw [parseLine_getAll, return_token fun part => .command (.getAll part), split_length_pos,
      complete_getAll]
  by_cases hget : getWord <+: line
  · obtain ⟨rest, rfl⟩ := hget
    rw [parseLine_get hall, return_token fun part => .command (.get part), split_length_pos,
      complete_get hall]
  by_cases hput : putWord <+: line
  · obtain ⟨rest, rfl⟩ := hput
    rw [parseLine_put, return_tokens, one_lt_split_length, complete_put]
  by_cases hdelete : deleteWord <+: line
  · obtain ⟨rest, rfl⟩ := hdelete
    rw [parseLine_delete, return_token fun part => .command (.delete part), split_length_pos,
      complete_delete]
  rw [parseLine_other hall hget hput hdelete]
  exact iff_of_true ⟨_, rfl⟩ (complete_other hall hget hput hdelete)

/-- "put k": `parts` has two tokens, and `parts[2]` is used. -/
theorem parseLine_put_outOfBounds :
    find putWord (putWord ++ [107]) = some 0 ∧ (split blank (putWord ++ [107])).length = 2 ∧
      parseLine (putWord ++ [107]) = .error .outOfBounds := by
  have hparts : split blank [107] = [[107]] := split_single (by decide) (by decide)
  refine ⟨by decide, ?_, ?_⟩
  · rw [split_put, hparts]
    rfl
  · rw [parseLine_put, hparts]
    rfl

/-! ## Sessions -/

/-- The line that makes the client send a command. -/
def Command.line : Command → Bytes
  | .get key => getWord ++ key
  | .put key value => putWord ++ key ++ blank :: value
  | .delete key => deleteWord ++ key
  | .getAll keyPrefix => getAllWord ++ keyPrefix

/-- The arguments can be typed: they have no blank in them, and the last one is not empty. -/
def Command.Typable : Command → Prop
  | .get key => blank ∉ key ∧ key ≠ []
  | .put key value => blank ∉ key ∧ blank ∉ value ∧ value ≠ []
  | .delete key => blank ∉ key ∧ key ≠ []
  | .getAll keyPrefix => blank ∉ keyPrefix ∧ keyPrefix ≠ []

theorem parseLine_line {c : Command} (h : c.Typable) : parseLine c.line = .ok (.command c) := by
  cases c with
  | get key =>
    obtain ⟨hblank, hne⟩ := h
    have hall : ¬ getAllWord <+: getWord ++ key := by
      -- "all " has a blank in it
      rintro ⟨rest, hrest⟩
      apply hblank
      change getWord ++ ([97, 108, 108, 32] ++ rest) = getWord ++ key at hrest
      have hkey := List.append_cancel_left hrest
      rw [← hkey]
      exact List.mem_append_left _ (by decide)
    show parseLine (getWord ++ key) = _
    rw [parseLine_get hall, split_single hblank hne]
    rfl
  | put key value =>
    obtain ⟨hkey, hvalue, hne⟩ := h
    show parseLine (putWord ++ key ++ blank :: value) = _
    rw [List.append_assoc, parseLine_put, split_append hkey, split_single hvalue hne]
    rfl
  | delete key =>
    show parseLine (deleteWord ++ key) = _
    rw [parseLine_delete, split_single h.1 h.2]
    rfl
  | getAll keyPrefix =>
    show parseLine (getAllWord ++ keyPrefix) = _
    rw [parseLine_getAll, split_single h.1 h.2]
    rfl

/-- The loop fails in `parseLine` only. -/
theorem mainLoop_returns {lines : List (Bytes × Bool)}
    (h : ∀ x ∈ lines, ∃ input, parseLine x.1 = .ok input) : ∃ sent, mainLoop lines = .ok sent := by
  induction lines with
  | nil => exact ⟨[], rfl⟩
  | cons x lines ih =>
    obtain ⟨line, eof⟩ := x
    obtain ⟨input, hinput⟩ := h (line, eof) List.mem_cons_self
    obtain ⟨sent, hsent⟩ := ih fun y hy => h y (List.mem_cons_of_mem _ hy)
    rw [mainLoop, hinput, hsent]
    cases input with
    | command c =>
      cases eof with
      | false => exact ⟨c :: sent, rfl⟩
      | true => exact ⟨[c], rfl⟩
    | quit => exact ⟨[], rfl⟩
    | unsupported => exact ⟨sent, rfl⟩

/-- **A session.**  The client sends the commands that were typed, while the server answers. -/
theorem mainLoop_lines {cs : List Command} (h : ∀ c ∈ cs, c.Typable) :
    mainLoop (cs.map (fun c => (c.line, false)) ++ [(quitWord, false)]) = .ok cs := by
  induction cs with
  | nil =>
    have hquit : parseLine quitWord = .ok .quit :=
      parseLine_other (by decide) (by decide) (by decide) (by decide)
    rw [List.map_nil, List.nil_append, mainLoop, hquit]
    rfl
  | cons c cs ih =>
    have hrest := ih fun d hd => h d (List.mem_cons_of_mem _ hd)
    rw [List.map_cons, List.cons_append, mainLoop, parseLine_line (h c List.mem_cons_self), hrest]
    rfl

end SqpKv
