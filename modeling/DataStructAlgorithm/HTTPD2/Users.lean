import DataStructAlgorithm.Foundation.Descriptors
import DataStructAlgorithm.Foundation.Slots
import DataStructAlgorithm.Foundation.Transition

/-! # The users of `HTTPD2.0/main.cpp`

The array `users` has an element for every descriptor below `MAX_FD`, and `main` indexes it
with the descriptors that `accept` and `epoll_wait` give it. -/

namespace DataStructAlgorithm.HTTPD2

open Foundation

/-- `MAX_FD` -/
def maxFd : Nat := 65535

/-- Standard input, output and error, `listenfd` and `epollfd`. -/
def alwaysOpen : List Nat := [0, 1, 2, 3, 4]

/-- The state of the main loop. An element of `users` is its `m_sockfd`, where `none` stands
for -1. -/
structure Server where
  users : List (Option Nat)
  userCount : Int
  /-- The descriptors of connections that are open. -/
  connections : List Nat
  /-- The descriptors that have been registered with `epoll`. -/
  registered : List Nat

/-- What `epoll_wait` reports. -/
inductive Report
  /-- A new connection, for which `accept` returns the lowest unused descriptor. -/
  | accept
  | acceptFailure
  /-- An event of a connection, after which it may be closed. -/
  | event (sockfd : Nat) (closes : Bool)
  deriving DecidableEq, Repr

namespace Server

def start : Server := ⟨List.replicate maxFd none, 0, [], []⟩

/-- `users[connfd].init(connfd, client_address)` -/
def init (server : Server) (connfd : Nat) : Outcome Server := do
  let users ← writeAt server.users connfd (some connfd)
  pure ⟨users, server.userCount + 1, connfd :: server.connections, connfd :: server.registered⟩

/-- `users[sockfd].close_conn()` -/
def closeConn (server : Server) (sockfd : Nat) : Outcome Server := do
  match ← readAt server.users sockfd with
  | none => pure server
  | some socket =>
      let users ← writeAt server.users sockfd none
      pure { server with
        users
        userCount := server.userCount - 1
        connections := server.connections.erase socket }

/-- One pass through the loop over the events. -/
def step (server : Server) : Report → Outcome Server
  | .accept =>
      let connfd := lowestUnused (alwaysOpen ++ server.connections)
      -- `show_error` closes the new descriptor again
      if server.userCount ≥ maxFd then pure server
      else server.init connfd
  | .acceptFailure => pure server
  | .event sockfd closes =>
      -- other descriptors are not reported
      if sockfd ∉ server.registered then pure server
      else if closes then server.closeConn sockfd
      else do
        let _ ← readAt server.users sockfd
        pure server

/-! ## Reachable states -/

/-- The descriptors that are open. -/
def used (server : Server) : List Nat := alwaysOpen ++ server.connections

/-- The users and the open connections belong together. -/
structure Consistent (server : Server) : Prop where
  length : server.users.length = maxFd
  count : server.userCount = server.connections.length
  nodup : server.used.Nodup
  below : ∀ fd ∈ server.used, fd < maxFd
  owned : ∀ fd socket : Nat, server.users[fd]? = some (some socket) →
    socket = fd ∧ fd ∈ server.connections
  registered : ∀ fd ∈ server.registered, fd < maxFd

theorem start_consistent : start.Consistent where
  length := List.length_replicate
  count := rfl
  nodup := by decide
  below := by decide
  owned := by
    intro fd socket found
    rw [start, List.getElem?_replicate] at found
    split at found
    · cases found
    · cases found
  registered := by simp [start]

variable {server : Server}

theorem length_used : server.used.length = server.connections.length + 5 := by
  rw [used, List.length_append, Nat.add_comm]
  rfl

theorem Consistent.init_consistent (consistent : server.Consistent) {connfd : Nat}
    (within : connfd < maxFd) (unused : connfd ∉ server.used) :
    ∃ after, server.init connfd = .ok after ∧ after.Consistent := by
  have room : connfd < server.users.length := consistent.length ▸ within
  refine ⟨⟨server.users.set connfd (some connfd), server.userCount + 1,
    connfd :: server.connections, connfd :: server.registered⟩, ?_, ?_⟩
  · rw [init, writeAt_of_lt _ room]
    rfl
  have moved : (alwaysOpen ++ connfd :: server.connections).Perm (connfd :: server.used) :=
    List.perm_middle
  constructor
  · exact List.length_set.trans consistent.length
  · rw [List.length_cons, consistent.count]
    rfl
  · exact moved.nodup_iff.mpr (List.nodup_cons.mpr ⟨unused, consistent.nodup⟩)
  · intro fd member
    rcases List.mem_cons.mp (moved.subset member) with rfl | inUse
    · exact within
    · exact consistent.below fd inUse
  · intro fd socket found
    rw [List.getElem?_set] at found
    by_cases here : connfd = fd
    · rw [if_pos here, if_pos room] at found
      cases found
      exact ⟨here, List.mem_cons.mpr (.inl here.symm)⟩
    · rw [if_neg here] at found
      rcases consistent.owned fd socket found with ⟨same, member⟩
      exact ⟨same, List.mem_cons_of_mem _ member⟩
  · exact List.forall_mem_cons.mpr ⟨within, consistent.registered⟩

theorem Consistent.closeConn_consistent (consistent : server.Consistent) {sockfd : Nat}
    (within : sockfd < maxFd) :
    ∃ after, server.closeConn sockfd = .ok after ∧ after.Consistent := by
  have room : sockfd < server.users.length := consistent.length ▸ within
  have read := readAt_of_lt room
  have found := List.getElem?_eq_getElem room
  cases user : server.users[sockfd] with
  | none =>
      refine ⟨server, ?_, consistent⟩
      rw [closeConn, read, user]
      rfl
  | some socket =>
      rw [user] at found
      rcases consistent.owned sockfd socket found with ⟨rfl, member⟩
      refine ⟨{ server with
        users := server.users.set socket none
        userCount := server.userCount - 1
        connections := server.connections.erase socket }, ?_, ?_⟩
      · rw [closeConn, read, user, Outcome.ok_bind, writeAt_of_lt _ room]
        rfl
      have fewer : (alwaysOpen ++ server.connections.erase socket).Sublist server.used :=
        (List.Sublist.refl alwaysOpen).append List.erase_sublist
      have nodup := (List.nodup_append.mp consistent.nodup).2.1
      constructor
      · exact List.length_set.trans consistent.length
      · have some := List.length_pos_of_mem member
        show server.userCount - 1 = ((server.connections.erase socket).length : Int)
        rw [List.length_erase_of_mem member, consistent.count]
        omega
      · exact consistent.nodup.sublist fewer
      · exact fun fd inUse => consistent.below fd (fewer.subset inUse)
      · intro fd other foundAfter
        rw [List.getElem?_set] at foundAfter
        by_cases here : socket = fd
        · rw [if_pos here, if_pos room] at foundAfter
          cases foundAfter
        · rw [if_neg here] at foundAfter
          rcases consistent.owned fd other foundAfter with ⟨same, isOpen⟩
          exact ⟨same, (List.Nodup.mem_erase_iff nodup).mpr ⟨Ne.symm here, isOpen⟩⟩
      · exact consistent.registered

theorem Consistent.length_le (consistent : server.Consistent) :
    server.connections.length + 5 ≤ maxFd := by
  have short := consistent.nodup.length_le_of_subset
    (fun fd member => List.mem_range.mpr (consistent.below fd member))
  rwa [List.length_range, length_used] at short

/-- The guard of the main loop never stops a connection. -/
theorem Consistent.not_busy (consistent : server.Consistent) : ¬ server.userCount ≥ maxFd := by
  have few := consistent.length_le
  rw [consistent.count]
  omega

/-- There is a descriptor below the bound for one more connection. -/
def Roomy (server : Server) (report : Report) : Prop :=
  report = .accept → server.userCount + 5 < maxFd

instance (server : Server) (report : Report) : Decidable (server.Roomy report) :=
  inferInstanceAs (Decidable (_ → _))

theorem Consistent.step_consistent (consistent : server.Consistent) {report : Report}
    (roomy : server.Roomy report) : ∃ after, server.step report = .ok after ∧ after.Consistent := by
  cases report with
  | accept =>
      have few := roomy rfl
      rcases lowestUnused_spec server.used with ⟨unused, low, _⟩
      have within : lowestUnused server.used < maxFd := by
        rw [consistent.count] at few
        rw [length_used] at low
        omega
      rcases consistent.init_consistent within unused with ⟨after, inited, kept⟩
      refine ⟨after, ?_, kept⟩
      rw [← inited]
      exact if_neg consistent.not_busy
  | acceptFailure => exact ⟨server, rfl, consistent⟩
  | event sockfd closes =>
      by_cases known : sockfd ∈ server.registered
      · have within := consistent.registered sockfd known
        cases closes with
        | true =>
            rcases consistent.closeConn_consistent within with ⟨after, closed, kept⟩
            refine ⟨after, ?_, kept⟩
            rw [step, if_neg (not_not_intro known)]
            exact closed
        | false =>
            refine ⟨server, ?_, consistent⟩
            rw [step, if_neg (not_not_intro known), readAt_of_lt (consistent.length ▸ within)]
            rfl
      · exact ⟨server, if_pos known, consistent⟩

/-- A connection that is accepted without a descriptor below the bound is out of range. -/
theorem Consistent.step_out_of_range (consistent : server.Consistent) {report : Report}
    (notRoomy : ¬ server.Roomy report) : server.step report = .error .outOfRange := by
  rw [Roomy, Classical.not_imp] at notRoomy
  rcases notRoomy with ⟨rfl, many⟩
  rcases lowestUnused_spec server.used with ⟨unused, _, _⟩
  have beyond : ¬ lowestUnused server.used < maxFd := by
    intro within
    have short := length_lt_of_unused consistent.nodup consistent.below within unused
    rw [length_used] at short
    rw [consistent.count] at many
    omega
  have failed : server.init (lowestUnused server.used) = .error .outOfRange := by
    have noRoom : ¬ lowestUnused server.used < server.users.length := consistent.length ▸ beyond
    rw [init, writeAt, if_neg noRoom]
    rfl
  rw [← failed]
  exact if_neg consistent.not_busy

theorem Consistent.of_step (consistent : server.Consistent) {report : Report} {after : Server}
    (stepped : server.step report = .ok after) : server.Roomy report ∧ after.Consistent := by
  have roomy : server.Roomy report := by
    apply Classical.byContradiction
    intro notRoomy
    rw [consistent.step_out_of_range notRoomy] at stepped
    cases stepped
  rcases consistent.step_consistent roomy with ⟨next, steppedNext, kept⟩
  rw [stepped] at steppedNext
  cases steppedNext
  exact ⟨roomy, kept⟩

/-- Every index into `users` is in range exactly when, at every connection that is accepted,
the connections and the five other descriptors do not take up all numbers below `MAX_FD`. -/
theorem users_in_range (reports : List Report) :
    (∃ final, runAll step start reports = .ok final) ↔ EveryStep step Roomy start reports := by
  constructor
  · have every : ∀ server, server.Consistent →
        (∃ final, runAll step server reports = .ok final) →
        EveryStep step Roomy server reports := by
      induction reports with
      | nil => exact fun _ _ _ => trivial
      | cons report reports induction =>
          rintro server consistent ⟨final, run⟩
          rcases Outcome.bind_eq_ok run with ⟨after, stepped, others⟩
          rcases consistent.of_step stepped with ⟨roomy, kept⟩
          exact EveryStep.cons stepped roomy (induction after kept ⟨final, others⟩)
    exact every start start_consistent
  · intro every
    rcases runAll_total Consistent (fun _ _ consistent roomy => consistent.step_consistent roomy)
      reports start start_consistent every with ⟨final, run, _⟩
    exact ⟨final, run⟩

theorem Consistent.accept_connections (consistent : server.Consistent) {after : Server}
    (stepped : server.step .accept = .ok after) :
    after.connections.length = server.connections.length + 1 := by
  rw [step, if_neg consistent.not_busy] at stepped
  rcases Outcome.bind_eq_ok stepped with ⟨users, _, inited⟩
  cases inited
  rfl

/-- Accepting some connections without a close in between. -/
theorem Consistent.run_accepts (consistent : server.Consistent) {count : Nat} {final : Server}
    (run : runAll step server (List.replicate count .accept) = .ok final) :
    final.Consistent ∧ final.connections.length = server.connections.length + count := by
  induction count generalizing server with
  | zero =>
      cases run
      exact ⟨consistent, rfl⟩
  | succ count induction =>
      rcases Outcome.bind_eq_ok run with ⟨after, stepped, others⟩
      rcases induction (consistent.of_step stepped).2 others with ⟨kept, length⟩
      rw [consistent.accept_connections stepped] at length
      exact ⟨kept, by omega⟩

/-- With 65530 clients connected and none of them leaving, the next one is out of range. -/
theorem users_out_of_range :
    ¬ ∃ final, runAll step start (List.replicate 65531 .accept) = .ok final := by
  rintro ⟨final, run⟩
  rcases start_consistent.run_accepts run with ⟨consistent, length⟩
  have few := consistent.length_le
  have none : start.connections.length = 0 := rfl
  have bound : maxFd = 65535 := rfl
  omega

end Server

end DataStructAlgorithm.HTTPD2
