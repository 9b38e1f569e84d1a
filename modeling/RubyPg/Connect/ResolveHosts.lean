import RubyPg.Connect.HostLists

/-!
# Resolving the hosts

`resolve_hosts` of `lib/pg/connection.rb` turns the options into three lists with one field
per address. They are the joined columns of a list of entries, as `remove_current_host`
needs them (`resolveHosts_entries`).
-/

namespace RubyPg.Connect
set_option autoImplicit false
open Ascii

/-- The characters of `\w`. -/
def isWord (c : UInt8) : Bool :=
  decide (IsDigit c) || decide (0x41 ≤ c ∧ c ≤ 0x5a) || decide (0x61 ≤ c ∧ c ≤ 0x7a) || c == 0x5f

/-- `host_string =~ /\A([\/\\]|\w:[\/\\])/`. -/
def isWindowsPath : Bytes → Bool
  | 0x2f :: _ => true
  | 0x5c :: _ => true
  | drive :: 0x3a :: 0x2f :: _ => isWord drive
  | drive :: 0x3a :: 0x5c :: _ => isWord drive
  | _ => false

/-- `host_is_named_pipe?`; paths in the manner of Windows count only there. -/
def hostIsNamedPipe (windows : Bool) : Bytes → Bool
  | [] => true
  | 0x2f :: _ => true
  | 0x40 :: _ => true
  | hostString => windows && isWindowsPath hostString

section Resolve

variable (windows : Bool) (getaddrinfo : Bytes → Option (List Bytes))

/-- The addresses of one host: none for a Unix socket, an empty one where it does not resolve. -/
def hostaddrsOf (mhost : Bytes) : List (Option Bytes) :=
  if hostIsNamedPipe windows mhost then [none] else ((getaddrinfo mhost).getD [[]]).map some

/-- The entries of one host; `nil` is joined as an empty field. -/
def destsOf (mhost : Bytes) (iport : Option Bytes) : List Entry :=
  (hostaddrsOf windows getaddrinfo mhost).map fun hostaddr =>
    { host := mhost, hostaddr := hostaddr.getD [], port := iport.getD [] }

/-- The ports of `n` hosts: none or a single one stands for all of them. -/
def portsOf (n : Nat) (iports : List Bytes) : List (Option Bytes) :=
  match iports with
  | [] => List.replicate n none
  | [iport] => List.replicate n (some iport)
  | iports => iports.map some

/-- `resolve_hosts`. -/
def resolveHosts (iopts : Opts) : Outcome Opts :=
  match iopts.host, iopts.port with
  | some host, some port =>
    let ihosts := rbSplit host
    let iports := portsOf ihosts.length (rbSplit port)
    let nhosts := ihosts.length
    let nports := iports.length
    if nports ≠ nhosts then
      rbRaise .connectionBad s!"could not match {nports} port numbers to {nhosts} hosts"
    else
      let dests := (ihosts.zip iports).flatMap fun dest => destsOf windows getaddrinfo dest.1 dest.2
      pure
        { host := some (rbJoin (dests.map Entry.host))
          hostaddr := some (rbJoin (dests.map Entry.hostaddr))
          port := some (rbJoin (dests.map Entry.port)) }
  | _, _ => rbRaise .noMethodError "undefined method 'split' for nil"

end Resolve

/-- What the resolver answers: at least one address, none of which can be taken for two. -/
structure Resolves (getaddrinfo : Bytes → Option (List Bytes)) : Prop where
  nonempty : ∀ mhost addrs, getaddrinfo mhost = some addrs → addrs ≠ []
  plain : ∀ mhost addrs, getaddrinfo mhost = some addrs → ∀ addr ∈ addrs, comma ∉ addr

theorem sep_notMem_of_mem_splitOn {sep : UInt8} {str field : Bytes} (member : field ∈ str.splitOn sep) :
    sep ∉ field := by
  induction str generalizing field with
  | nil => simp_all
  | cons c str ih =>
    obtain ⟨first, rest, split⟩ := List.exists_cons_of_ne_nil (List.splitOn_ne_nil sep str)
    rw [List.splitOn_cons_eq_if_modifyHead, split] at member
    rw [split] at ih
    by_cases same : c = sep
    · simp only [same, beq_self_eq_true, if_true, List.mem_cons] at member
      rcases member with rfl | member
      · exact List.not_mem_nil
      · exact ih (List.mem_cons.2 member)
    · simp only [beq_iff_eq, same, if_false, List.modifyHead_cons, List.mem_cons] at member
      rcases member with rfl | later
      · have absent : sep ∉ first := ih List.mem_cons_self
        simp [Ne.symm same, absent]
      · exact ih (List.mem_cons_of_mem _ later)

/-- No field of a split list contains a comma. -/
theorem comma_notMem_of_mem_rbSplit {str field : Bytes} (member : field ∈ rbSplit str) : comma ∉ field := by
  unfold rbSplit at member
  split at member
  · cases member
  · exact sep_notMem_of_mem_splitOn member

section Entries

variable {windows : Bool} {getaddrinfo : Bytes → Option (List Bytes)} {mhost : Bytes} {iport : Option Bytes}

theorem destsOf_ne_nil (resolves : Resolves getaddrinfo) : destsOf windows getaddrinfo mhost iport ≠ [] := by
  unfold destsOf hostaddrsOf
  split
  · simp
  · cases answer : getaddrinfo mhost with
    | none => simp
    | some addrs => simpa using resolves.nonempty mhost addrs answer

/-- An entry has the host and the port it comes from, and an address of that host. -/
theorem mem_destsOf (resolves : Resolves getaddrinfo) {e : Entry}
    (member : e ∈ destsOf windows getaddrinfo mhost iport) :
    e.host = mhost ∧ e.port = iport.getD [] ∧ comma ∉ e.hostaddr := by
  obtain ⟨hostaddr, answered, rfl⟩ := List.mem_map.1 member
  refine ⟨rfl, rfl, ?_⟩
  unfold hostaddrsOf at answered
  split at answered
  · rw [List.mem_singleton.1 answered]
    simp
  · obtain ⟨addr, listed, rfl⟩ := List.mem_map.1 answered
    cases answer : getaddrinfo mhost with
    | none =>
      rw [answer, Option.getD_none, List.mem_singleton] at listed
      simp [listed]
    | some addrs =>
      rw [answer] at listed
      exact resolves.plain mhost addrs answer addr listed

theorem mem_portsOf {n : Nat} {iports : List Bytes} (member : iport ∈ portsOf n iports) :
    iport = none ∨ ∃ p ∈ iports, iport = some p := by
  unfold portsOf at member
  split at member
  · exact Or.inl (List.mem_replicate.1 member).2
  · exact Or.inr ⟨_, List.mem_singleton_self _, (List.mem_replicate.1 member).2⟩
  · obtain ⟨p, listed, rfl⟩ := List.mem_map.1 member
    exact Or.inr ⟨p, listed, rfl⟩

/-- The ports of the hosts are fields of the option, or empty. -/
theorem comma_notMem_port {n : Nat} {port : Bytes} (member : iport ∈ portsOf n (rbSplit port)) :
    comma ∉ iport.getD [] := by
  obtain rfl | ⟨p, listed, rfl⟩ := mem_portsOf member
  · exact List.not_mem_nil
  · exact comma_notMem_of_mem_rbSplit listed

end Entries

/-- The fields of a given option are never a single empty one. -/
theorem rbSplit_ne_single {str : Bytes} (given : str ≠ []) : rbSplit str ≠ [] ∧ rbSplit str ≠ [[]] := by
  rw [rbSplit, if_neg given]
  refine ⟨List.splitOn_ne_nil _ _, fun single => given ?_⟩
  have joined : [comma].intercalate (str.splitOn comma) = str := List.intercalate_splitOn comma
  rw [single] at joined
  exact joined.symm

/-- Every host has an entry. -/
theorem length_le_flatMap_destsOf {windows : Bool} {getaddrinfo : Bytes → Option (List Bytes)}
    (resolves : Resolves getaddrinfo) (dests : List (Bytes × Option Bytes)) :
    dests.length ≤ (dests.flatMap fun dest => destsOf windows getaddrinfo dest.1 dest.2).length := by
  induction dests with
  | nil => exact Nat.zero_le _
  | cons dest dests ih =>
    have some : 0 < (destsOf windows getaddrinfo dest.1 dest.2).length :=
      List.length_pos_of_ne_nil (destsOf_ne_nil resolves)
    rw [List.flatMap_cons, List.length_append, List.length_cons]
    omega

/-- **What `resolve_hosts` produces** for a host that is given: the lists of some entries, whose hosts are
not a single empty field. -/
theorem resolveHosts_entries {windows : Bool} {getaddrinfo : Bytes → Option (List Bytes)} {iopts opts : Opts}
    (resolves : Resolves getaddrinfo) (given : iopts.host ≠ some [])
    (resolved : resolveHosts windows getaddrinfo iopts = .ok opts) :
    ∃ es : List Entry, es ≠ [] ∧ (∀ e ∈ es, e.Plain) ∧ es.map Entry.host ≠ [[]] ∧ opts = optsOf es := by
  obtain ⟨host, hostaddr, port⟩ := iopts
  cases host with
  | none => cases resolved
  | some host =>
    cases port with
    | none => cases resolved
    | some port =>
      simp only [resolveHosts] at resolved
      split at resolved
      · cases resolved
      · rename_i matched
        cases resolved
        obtain ⟨someHost, notEmpty⟩ := rbSplit_ne_single fun empty => given (congrArg some empty)
        have positive := List.length_pos_of_ne_nil someHost
        have length : ((rbSplit host).zip (portsOf (rbSplit host).length (rbSplit port))).length =
            (rbSplit host).length := by
          rw [List.length_zip]
          omega
        have enough := @length_le_flatMap_destsOf windows getaddrinfo resolves
          ((rbSplit host).zip (portsOf (rbSplit host).length (rbSplit port)))
        refine ⟨_, List.ne_nil_of_length_pos (by omega), fun e member => ?_, fun lost => ?_, rfl⟩
        · obtain ⟨dest, listed, found⟩ := List.mem_flatMap.1 member
          obtain ⟨host, port, hostaddr⟩ := mem_destsOf resolves found
          have sides := List.of_mem_zip listed
          exact ⟨host ▸ comma_notMem_of_mem_rbSplit sides.1, hostaddr, port ▸ comma_notMem_port sides.2⟩
        · obtain ⟨e, single, empty⟩ := single_of_lost lost
          rw [single, List.length_singleton] at enough
          obtain ⟨mhost, hosts⟩ := List.length_eq_one_iff.1 (show (rbSplit host).length = 1 by omega)
          have own : e.host = mhost := by
            obtain ⟨dest, listed, found⟩ := List.mem_flatMap.1 (single ▸ List.mem_singleton_self e)
            have member := (List.of_mem_zip listed).1
            rw [hosts, List.mem_singleton] at member
            exact (mem_destsOf resolves found).1.trans member
          exact notEmpty (by rw [hosts, ← own, empty])

end RubyPg.Connect
