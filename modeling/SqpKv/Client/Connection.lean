import SqpKv.Protocol.Content

/-!
# The client (include/sqpkv/connection.h, src/client/connection.cc)

A call of `Connection::Get`, `Put`, `Delete` or `GetAll` sends its command and
then reads one response, which it takes for one of its own class.
-/

namespace SqpKv

open Wire

/-- What a call returns: its status, and what it stored in its out parameter. -/
inductive CallResult
  | get (status : Status) (value : Option Bytes)
  | done (status : Status)
  | getAll (status : Status) (keys : List Bytes)
deriving DecidableEq

/-- From the response to the end of the call; `none` where the response is cast to a class it
does not have. -/
def Connection.finish : Command → Response → Option CallResult
  | .get _, .get s value => if s.ok then some (.get .Ok (some value)) else some (.get s none)
  | .put _ _, .put s => some (.done s)
  -- the cast to `DeleteResponsePacket` only uses what it has in common with `PutResponsePacket`
  | .delete _, .put s => some (.done s)
  | .delete _, .delete s => some (.done s)
  | .getAll _, .getAll s keys => if s.ok then some (.getAll .Ok keys) else some (.getAll s [])
  | _, _ => none

/-- The key of a command on a single key. -/
def Command.key? : Command → Option Bytes
  | .get key => some key
  | .put key _ => some key
  | .delete key => some key
  | .getAll _ => none

end SqpKv
