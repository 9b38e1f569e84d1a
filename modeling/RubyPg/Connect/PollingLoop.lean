import RubyPg.Value
import Mathlib.Data.List.Basic

/-!
# Connecting to several hosts

`remove_current_host` and `polling_loop` of `lib/pg/connection.rb`. The hosts still to be
tried are kept as comma separated lists in the options; every round of the loop takes the
current one out, and a timeout starts again with the rest.
-/

namespace RubyPg.Connect
set_option autoImplicit false
open Ascii

/-- `str.split(",", -1)`: empty fields are kept, but the empty string has no field at all. -/
def rbSplit (str : Bytes) : List Bytes := if str = [] then [] else str.splitOn comma

/-- `ary.join(",")`. -/
def rbJoin (ary : List Bytes) : Bytes := [comma].intercalate ary

def isSpace (c : UInt8) : Bool :=
  c == space || c == tab || c == newline || c == vtab || c == formfeed || c == cr

/-- The digits at the start of a string, for `atoi`. -/
def leadingDigits (acc : Nat) : Bytes → Nat
  | [] => acc
  | d :: rest => if IsDigit d then leadingDigits (acc * 10 + (d.toNat - 48)) rest else acc

/-- The digits at the start of a string, where Ruby allows single underscores between them. -/
def leadingUnderscored (acc : Nat) : Bytes → Nat
  | [] => acc
  | d :: rest =>
    if IsDigit d then
      match rest with
      | 0x5f :: next :: rest' =>
        if IsDigit next then leadingUnderscored (acc * 10 + (d.toNat - 48)) (next :: rest')
        else acc * 10 + (d.toNat - 48)
      | rest => leadingUnderscored (acc * 10 + (d.toNat - 48)) rest
    else acc

/-- The sign in front of a number, behind white space. -/
def splitSign (str : Bytes) : Bool × Bytes :=
  match str.dropWhile isSpace with
  | 0x2d :: rest => (true, rest)
  | 0x2b :: rest => (false, rest)
  | rest => (false, rest)

/-- `atoi`. -/
def atoi (str : Bytes) : Int :=
  let (neg, rest) := splitSign str
  let n := leadingDigits 0 rest
  if neg then -(n : Int) else n

/-- `str.to_i`; `0d` may stand in front of the digits. -/
def toI (str : Bytes) : Int :=
  let (neg, rest) := splitSign str
  let n := match rest with
    | 0x30 :: 0x64 :: rest => leadingUnderscored 0 rest
    | 0x30 :: 0x44 :: rest => leadingUnderscored 0 rest
    | rest => leadingUnderscored 0 rest
  if neg then -(n : Int) else n

/-- The entries of the option hash that `remove_current_host` reads and writes; `none` is `nil`. -/
structure Opts where
  host : Option Bytes
  hostaddr : Option Bytes
  port : Option Bytes
deriving DecidableEq, Repr

/-- What the connection reports about itself; without the method `hostaddr` the middle is `none`. -/
structure Current where
  host : Bytes
  hostaddr : Option Bytes
  port : Int
deriving DecidableEq, Repr

/-- `iports * (ihosts || ihostaddrs || [1]).size if iports&.size == 1`. -/
def spreadPorts (ihosts ihostaddrs : Option (List Bytes)) (iports : List Bytes) : List Bytes :=
  if iports.length = 1 then
    (List.replicate (((ihosts <|> ihostaddrs).map List.length).getD 1) iports).flatten
  else iports

/-- The block of `index.with_index`. -/
def isCurrent (current : Current) (ihosts ihostaddrs iports : Option (List Bytes)) (i : Nat) : Bool :=
  (match ihosts with
    | some hosts => decide (hosts[i]? = some current.host)
    | none => true) &&
  (match ihostaddrs, current.hostaddr with
    | some hostaddrs, some hostaddr => decide (hostaddrs[i]? = some hostaddr)
    | _, _ => true) &&
  (match iports with
    | some ports => decide ((ports[i]?.map toI).getD 0 = current.port)
    | none => true)

/-- `remove_current_host`: the number of remaining hosts and the options. -/
def removeCurrentHost (current : Current) (iopts : Opts) : Outcome (Nat × Opts) :=
  let ihosts := iopts.host.map rbSplit
  let ihostaddrs := iopts.hostaddr.map rbSplit
  let iports := (iopts.port.map rbSplit).map (spreadPorts ihosts ihostaddrs)
  match ihosts <|> ihostaddrs <|> iports with
  | none => rbRaise .noMethodError "undefined method 'index' for nil"
  | some list =>
    match (List.range list.length).find? (isCurrent current ihosts ihostaddrs iports) with
    | none => pure (list.length, iopts)
    | some idx =>
      let delete := Option.map fun l : List Bytes => l.eraseIdx idx
      pure (list.length - 1,
        { host := (delete ihosts).map rbJoin
          hostaddr := (delete ihostaddrs).map rbJoin
          port := (delete iports).map rbJoin })

/-- `PostgresPollingStatusType`. -/
inductive PollStatus where
  | ok | failed | reading | writing
deriving DecidableEq, Repr

/-- How `polling_loop` leaves. -/
inductive Ended where
  | polled (status : PollStatus)
  | timedOut
  | raised (stop : Stop)
deriving DecidableEq, Repr

/-- The variables of the loop, the options the connection was started with last, and the number of
restarts. -/
structure LoopState where
  iopts : Opts
  started : Opts
  pollStatus : PollStatus := .writing
  restarts : Nat := 0
  ended : Option Ended := none
deriving DecidableEq, Repr

/-- What happens in one round: what the connection reports, whether the socket gets ready in time,
and what polling it then says. -/
structure Round where
  current : Current
  event : Bool
  poll : PollStatus

/-- One round of the loop. Without `connect_timeout` the wait has no end. -/
def pollRound (connectTimeout : Bool) (st : LoopState) (round : Round) : LoopState :=
  match removeCurrentHost round.current st.iopts with
  | .error stop => { st with ended := some (.raised stop) }
  | .ok (hostcnt, iopts) =>
    if round.event || !connectTimeout then
      { st with
        iopts, pollStatus := round.poll
        ended := if round.poll = .ok ∨ round.poll = .failed then some (.polled round.poll) else none }
    else if 0 < hostcnt then
      -- reset_start2 with the remaining hosts
      { st with iopts, started := iopts, pollStatus := .writing, restarts := st.restarts + 1 }
    else { st with iopts, ended := some .timedOut }

/-- The loop in front of its first round. -/
def startLoop (iopts : Opts) : LoopState := { iopts, started := iopts }

end RubyPg.Connect
