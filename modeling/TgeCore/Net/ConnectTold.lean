import TgeCore.Net.StreamSocket

namespace TgeCore.Net
open Library Threading

def SocketSeen.error : SocketSeen → Option ErrorCode
  | .connecting failure => failure
  | .polled (.error error) => some error
  | .received (.error error) => some error
  | _ => none

/-- What PollConnected or Receive returns. -/
def SocketSeen.isAnswer : SocketSeen → Bool
  | .polled _ => true
  | .received _ => true
  | _ => false

/-- A call of the system that fails, poll or getsockopt. -/
def SocketMove.fails : SocketMove → Bool
  | .poll none => true
  | .take (some _) _ => true
  | _ => false

def Told (os : List SocketSeen) (error : Nat) : Prop := ∃ o ∈ os, o.error = some ⟨error, .system⟩

/-- What has happened since the last Receive began. -/
def SinceReceive (is since : List SocketMove) : Prop := ∃ before, is = before ++ .receive :: since ∧ .receive ∉ since

section History
variable {is since : List SocketMove} {os : List SocketSeen} {m : SocketMove} {o : SocketSeen} {error : Nat}

theorem Told.concat (h : Told os error) (o : SocketSeen) : Told (os ++ [o]) error := by
  obtain ⟨told, hmem, herror⟩ := h
  exact ⟨told, List.mem_append_left _ hmem, herror⟩

theorem told_last (h : o.error = some ⟨error, .system⟩) : Told (os ++ [o]) error :=
  ⟨o, List.mem_append_right _ (List.mem_singleton_self o), h⟩

theorem SinceReceive.concat (h : SinceReceive is since) (hm : m ≠ .receive) :
    SinceReceive (is ++ [m]) (since ++ [m]) := by
  obtain ⟨before, rfl, hnot⟩ := h
  refine ⟨before, by simp, ?_⟩
  intro hmem
  rcases List.mem_append.mp hmem with hmem | hmem
  · exact hnot hmem
  · exact hm (List.mem_singleton.mp hmem).symm

theorem sinceReceive_begin (is : List SocketMove) : SinceReceive (is ++ [.receive]) [] := ⟨is, rfl, List.not_mem_nil⟩

end History

theorem isFailure_ne {p : Platform} {error : Nat} (h : isFailure p error = true) (condition : Errc) :
    (ErrorCode.mk error .system).is p condition = false := by
  simp only [isFailure, Bool.and_eq_true, decide_eq_true_eq] at h
  obtain ⟨⟨-, hblock⟩, hconnected⟩ := h
  cases condition with
  | operationWouldBlock => exact decide_eq_false hblock
  | notConnected => exact decide_eq_false hconnected

namespace StreamSocket
variable {p : Platform} {s t : StreamSocket} {is : List SocketMove} {os : List SocketSeen} {m : SocketMove}
  {o : SocketSeen}

def notConnectedError (p : Platform) : ErrorCode := ⟨Errc.notConnected.system p, .system⟩

/-- In a Receive that was told "not connected": the connect that stands by now was made since, on Windows, for
Linux tells a connect that goes on from none. -/
structure Unconnected (p : Platform) (is : List SocketMove) (s : StreamSocket) : Prop where
  linux : p = .linux → s.link ≠ .connecting ∧ s.link ≠ .connected
  since : ∃ since, SinceReceive is since ∧ (s.link = .connected → .establish ∈ since)

/-- What holds between the steps: an error that is no longer pending has been told, one that is tells why; and where a
call stands. -/
structure Follows (p : Platform) (is : List SocketMove) (os : List SocketSeen) (s : StreamSocket) : Prop where
  told : ∀ error, s.link = .failed error false → Told os error
  failure : ∀ error, s.link = .failed error true → isFailure p error = true
  connected : s.call = .takeConnected → s.link ≠ .connecting
  receive : s.call = .receive → ∃ since, SinceReceive is since
  settle : ∀ error, s.call = .settle error → error = notConnectedError p ∧ Unconnected p is s
  taken : ∀ error, s.call = .takeReceived error →
    error = notConnectedError p ∧ Unconnected p is s ∧ s.link ≠ .connecting

/-- What a step tells, with the history before it. -/
structure Tells (p : Platform) (is : List SocketMove) (m : SocketMove) (os : List SocketSeen) (o : SocketSeen)
    (t : StreamSocket) : Prop where
  pending : ∀ error, t.link = .failed error true → o.isAnswer = true → m.fails = true
  told : ∀ error, t.link = .failed error false → Told (os ++ [o]) error
  connected : o = .polled (.ok true) → t.link ≠ .connecting
  notConnected : ∀ error, o = .received (.error error) → error.is p .notConnected = true →
    t.link = .fresh ∨ (∃ error, t.link = .failed error false ∧ Told os error) ∨
      t.link = .connected ∧ p = .windows ∧ ∃ since, SinceReceive is since ∧ .establish ∈ since

/-- A step that answers nothing. -/
theorem tells_unanswered (ho : o.isAnswer = false)
    (htold : ∀ error, t.link = .failed error false → Told (os ++ [o]) error) : Tells p is m os o t where
  pending := fun _ _ h => by cases ho.symm.trans h
  told := htold
  connected := by
    intro heq
    subst heq
    cases ho
  notConnected := by
    intro _ heq
    subst heq
    cases ho

theorem tells_nothing (htold : ∀ error, t.link = .failed error false → Told os error) :
    Tells p is m os .nothing t :=
  tells_unanswered rfl fun error hlink => (htold error hlink).concat _

theorem Unconnected.concat (h : Unconnected p is s) (hm : m ≠ .receive) : Unconnected p (is ++ [m]) s := by
  obtain ⟨since, hsince, hconnected⟩ := h.since
  refine ⟨h.linux, since ++ [m], hsince.concat hm, ?_⟩
  intro hlink
  exact List.mem_append_left _ (hconnected hlink)

/-- A step of the network, when a connect is going on. -/
theorem Follows.network (h : Follows p is os s) (hlink : s.link = .connecting) {link : Link}
    (hend : m = .establish ∧ link = .connected ∨
      ∃ error, m = .refuse error ∧ link = .failed error true ∧ isFailure p error = true) :
    Follows p (is ++ [m]) (os ++ [.nothing]) { s with link } ∧ Tells p is m os .nothing { s with link } := by
  have hm : m ≠ .receive := by
    rcases hend with ⟨rfl, -⟩ | ⟨error, rfl, -⟩ <;> exact fun heq => by cases heq
  have hlinks : link = .connected ∧ m = .establish ∨ ∃ error, link = .failed error true ∧ isFailure p error = true := by
    rcases hend with ⟨hm, hlink⟩ | ⟨error, -, hlink, hfailure⟩
    · exact .inl ⟨hlink, hm⟩
    · exact .inr ⟨error, hlink, hfailure⟩
  have htold : ∀ error, link ≠ .failed error false := by
    intro error heq
    rcases hlinks with ⟨hconnected, -⟩ | ⟨error', hfailed, -⟩
    · cases heq.symm.trans hconnected
    · cases heq.symm.trans hfailed
  have hwindows : Unconnected p is s → Unconnected p (is ++ [m]) { s with link } := by
    intro hun
    obtain ⟨since, hsince, -⟩ := hun.since
    refine ⟨fun hlinux => absurd hlink (hun.linux hlinux).1, since ++ [m], hsince.concat hm, ?_⟩
    intro hconnected
    rcases hlinks with ⟨-, rfl⟩ | ⟨error, hfailed, -⟩
    · exact List.mem_append_right _ (List.mem_singleton_self _)
    · cases hfailed.symm.trans hconnected
  refine ⟨⟨fun error heq => absurd heq (htold error), ?_, ?_, ?_, ?_, ?_⟩,
    tells_nothing fun error heq => absurd heq (htold error)⟩
  · intro error heq
    rcases hlinks with ⟨hconnected, -⟩ | ⟨error', hfailed, hfailure⟩
    · cases heq.symm.trans hconnected
    · cases heq.symm.trans hfailed
      exact hfailure
  · exact fun hcall => absurd hlink (h.connected hcall)
  · intro hcall
    obtain ⟨since, hsince⟩ := h.receive hcall
    exact ⟨since ++ [m], hsince.concat hm⟩
  · intro error hcall
    obtain ⟨herror, hun⟩ := h.settle error hcall
    exact ⟨herror, hwindows hun⟩
  · exact fun error hcall => absurd hlink (h.taken error hcall).2.2

theorem Follows.stillTold (h : Follows p is os s) (o : SocketSeen) :
    ∀ error, s.link = .failed error false → Told (os ++ [o]) error := by
  intro error hlink
  exact (h.told error hlink).concat o

/-- Between two calls only the errors matter. -/
theorem follows_idle (hidle : t.call = .idle) (htold : ∀ error, t.link = .failed error false → Told os error)
    (hfailure : ∀ error, t.link = .failed error true → isFailure p error = true) : Follows p is os t where
  told := htold
  failure := hfailure
  connected := fun h => by cases hidle.symm.trans h
  receive := fun h => by cases hidle.symm.trans h
  settle := fun _ h => by cases hidle.symm.trans h
  taken := fun _ h => by cases hidle.symm.trans h

theorem Follows.returns (h : Follows p is os s) (is : List SocketMove) (o : SocketSeen) :
    Follows p is (os ++ [o]) { s with call := .idle } :=
  follows_idle rfl (h.stillTold o) h.failure

theorem connect_follows (hidle : s.call = .idle) (failure : Option Nat) :
    Follows p (is ++ [m]) (os ++ [(s.connect p failure).2]) (s.connect p failure).1 ∧
      Tells p is m os (s.connect p failure).2 (s.connect p failure).1 := by
  cases failure with
  | none =>
    refine ⟨follows_idle hidle (fun _ hlink => by cases hlink) (fun _ hlink => by cases hlink), ?_⟩
    exact tells_unanswered rfl fun _ hlink => by cases hlink
  | some error =>
    unfold StreamSocket.connect
    dsimp only
    split
    · refine ⟨follows_idle hidle (fun _ hlink => by cases hlink) (fun _ hlink => by cases hlink), ?_⟩
      exact tells_unanswered rfl fun _ hlink => by cases hlink
    · have htold : ∀ other, Link.failed error false = .failed other false →
          Told (os ++ [.connecting (some ⟨error, .system⟩)]) other := by
        intro other heq
        cases heq
        exact told_last rfl
      exact ⟨follows_idle hidle htold (fun _ hlink => by cases hlink), tells_unanswered rfl htold⟩

theorem Follows.begins (h : Follows p is os s) {call : CallAt} (hbegin : m = .pollConnected ∧ call = .pollConnected ∨
    m = .receive ∧ call = .receive) :
    Follows p (is ++ [m]) (os ++ [.nothing]) { s with call } ∧ Tells p is m os .nothing { s with call } := by
  refine ⟨⟨h.stillTold _, h.failure, ?_, ?_, ?_, ?_⟩, tells_nothing h.told⟩
  all_goals rcases hbegin with ⟨rfl, rfl⟩ | ⟨rfl, rfl⟩
  · exact fun hcall => by cases hcall
  · exact fun hcall => by cases hcall
  · exact fun hcall => by cases hcall
  · exact fun _ => ⟨[], sinceReceive_begin is⟩
  · exact fun _ hcall => by cases hcall
  · exact fun _ hcall => by cases hcall
  · exact fun _ hcall => by cases hcall
  · exact fun _ hcall => by cases hcall

theorem polls_connecting (hlink : s.link = .connecting) : s.polls true = false := by
  simp [polls, hlink]

/-- A poll that answers of a failed connect says that it is ready. -/
theorem fails_of_unready {isReady : Option Bool} {error : Nat} {isPending : Bool}
    (hlink : s.link = .failed error isPending) (hpolls : isReady.all s.polls = true)
    (hunready : isReady.getD false = false) : (SocketMove.poll isReady).fails = true := by
  cases isReady with
  | none => rfl
  | some ready =>
    obtain rfl : ready = false := hunready
    simp [polls, hlink] at hpolls

theorem Follows.poll (h : Follows p is os s) {isReady : Option Bool} (hst : s.step p (.poll isReady) = some (t, o)) :
    Follows p (is ++ [.poll isReady]) (os ++ [o]) t ∧ Tells p is (.poll isReady) os o t := by
  simp only [step] at hst
  split at hst
  swap
  · cases hst
  rename_i hpolls
  have hm : SocketMove.poll isReady ≠ .receive := fun heq => by cases heq
  have hready : isReady.getD false = true → s.link ≠ .connecting := by
    intro htrue hlink
    cases isReady with
    | none => cases htrue
    | some ready =>
      obtain rfl : ready = true := htrue
      simp [polls_connecting hlink] at hpolls
  split at hst
  · rename_i hready'
    cases hst
    refine ⟨⟨h.stillTold _, h.failure, fun _ => hready hready', ?_, ?_, ?_⟩,
      tells_nothing h.told⟩
    · exact fun hcall => by cases hcall
    · exact fun _ hcall => by cases hcall
    · exact fun _ hcall => by cases hcall
  · rename_i hunready
    cases hst
    refine ⟨h.returns _ _, fun _ hlink _ => fails_of_unready hlink hpolls hunready, ?_, ?_, ?_⟩
    · exact h.stillTold _
    · exact fun ho => by cases ho
    · exact fun _ ho => by cases ho
  · rename_i error hcall hready'
    cases hst
    obtain ⟨herror, hun⟩ := h.settle error hcall
    refine ⟨⟨h.stillTold _, h.failure, ?_, ?_, ?_, ?_⟩, tells_nothing h.told⟩
    · exact fun hcall => by cases hcall
    · exact fun hcall => by cases hcall
    · exact fun _ hcall => by cases hcall
    · intro other hcall'
      cases hcall'
      have hun' := hun.concat hm
      exact ⟨herror, ⟨hun'.linux, hun'.since⟩, hready hready'⟩
  · rename_i error hcall hunready
    cases hst
    refine ⟨h.returns _ _, fun _ hlink _ => fails_of_unready hlink hpolls hunready, ?_, ?_, ?_⟩
    · exact h.stillTold _
    · exact fun ho => by cases ho
    · intro other ho hnot
      cases ho
      cases p <;> cases hnot
  · cases hst

/-- What TakePendingError finds: an error of its own, that of a failed connect, or what there is otherwise. -/
theorem takePendingError_cases (h : Follows p is os s) (failure : Option Nat) (since : Nat) :
    (∃ error, failure = some error ∧ s.takePendingError failure since = (s, some ⟨error, .system⟩)) ∨
      (∃ error, s.link = .failed error true ∧
        s.takePendingError failure since = ({ s with link := .failed error false }, some ⟨error, .system⟩)) ∨
      (∀ error, s.link ≠ .failed error true) ∧ (s.takePendingError failure since = (s, none) ∨
        since ≠ 0 ∧ s.takePendingError failure since = (s, some ⟨since, .system⟩)) := by
  cases failure with
  | some error => exact .inl ⟨error, rfl, rfl⟩
  | none =>
    right
    unfold takePendingError takeError
    dsimp only
    split
    · rename_i error hlink
      have hne : error ≠ 0 := by
        intro hzero
        have hfailure := h.failure error hlink
        simp [isFailure, hzero] at hfailure
      exact .inl ⟨error, hlink, by rw [if_pos hne]⟩
    · rename_i hlink
      refine .inr ⟨fun error heq => (by cases hlink.symm.trans heq), ?_⟩
      dsimp only
      split
      · rename_i hne
        exact .inr ⟨hne, rfl⟩
      · exact .inl rfl
    · rename_i hnot hother
      exact .inr ⟨hnot, .inl rfl⟩

theorem Follows.take (h : Follows p is os s) {failure : Option Nat} {since : Nat}
    (hst : s.step p (.take failure since) = some (t, o)) :
    Follows p (is ++ [.take failure since]) (os ++ [o]) t ∧ Tells p is (.take failure since) os o t := by
  simp only [step] at hst
  split at hst
  swap
  · cases hst
  rename_i hguard
  obtain ⟨hfails, hsince⟩ := hguard
  rcases takePendingError_cases h failure since with ⟨error, rfl, htake⟩ | ⟨error, hlink, htake⟩ | ⟨hnot, htake⟩
  · simp only [htake] at hst
    split at hst
    · cases hst
      refine ⟨h.returns _ _, fun _ _ _ => rfl, h.stillTold _, ?_, fun _ ho => by cases ho⟩
      exact fun ho => by cases ho
    · cases hst
      refine ⟨h.returns _ _, fun _ _ _ => rfl, h.stillTold _, fun ho => (by cases ho), ?_⟩
      intro other ho hnot
      cases ho
      exact absurd hnot (by simp [receiveResult, isFailure_ne (hfails error rfl)])
    · cases hst
  · have htold : ∀ (o : SocketSeen) (other : Nat), o.error = some ⟨error, .system⟩ →
        Link.failed error false = .failed other false → Told (os ++ [o]) other := by
      intro o other ho heq
      cases heq
      exact told_last ho
    simp only [htake] at hst
    split at hst
    · cases hst
      refine ⟨follows_idle rfl (fun other => htold _ other rfl) (fun _ hlink => by cases hlink),
        fun _ hlink => (by cases hlink),
        fun other => htold _ other rfl, fun ho => (by cases ho), fun _ ho => by cases ho⟩
    · cases hst
      refine ⟨follows_idle rfl (fun other => htold _ other rfl) (fun _ hlink => by cases hlink),
        fun _ hlink => (by cases hlink),
        fun other => htold _ other rfl, fun ho => (by cases ho), ?_⟩
      intro other ho hnot
      cases ho
      exact absurd hnot (by simp [receiveResult, isFailure_ne (h.failure error hlink)])
    · cases hst
  · have hpending : ∀ pending, s.takePendingError failure since = (s, pending) → pending = none ∨
        ∃ error, pending = some ⟨error, .system⟩ ∧ isFailure p error = true := by
      intro pending heq
      rcases htake with htake | ⟨hne, htake⟩
      · exact .inl (congrArg Prod.snd (heq.symm.trans htake))
      · exact .inr ⟨since, congrArg Prod.snd (heq.symm.trans htake), hsince.resolve_left hne⟩
    obtain ⟨pending, htake⟩ : ∃ pending, s.takePendingError failure since = (s, pending) := by
      rcases htake with htake | ⟨-, htake⟩
      · exact ⟨_, htake⟩
      · exact ⟨_, htake⟩
    simp only [htake] at hst
    split at hst
    · rename_i hcall
      cases hst
      refine ⟨h.returns _ _, fun error hlink => absurd hlink (hnot error), h.stillTold _,
        fun _ => h.connected hcall, fun _ ho => by cases ho⟩
    · rename_i error hcall
      cases hst
      obtain ⟨herror, hun, hlink⟩ := h.taken error hcall
      refine ⟨h.returns _ _, fun error hlink => absurd hlink (hnot error), h.stillTold _,
        fun ho => (by cases ho), ?_⟩
      intro other ho hnotConnected
      cases ho
      dsimp only
      rcases hpending pending htake with rfl | ⟨value, rfl, hfailure⟩
      · cases hat : s.link with
        | fresh => exact .inl rfl
        | connecting => exact absurd hat hlink
        | connected =>
          right
          right
          refine ⟨rfl, ?_, ?_⟩
          · cases p with
            | linux => exact absurd hat (hun.linux rfl).2
            | windows => rfl
          · obtain ⟨since, hsince, hestablished⟩ := hun.since
            exact ⟨since, hsince, hestablished hat⟩
        | failed value isPending =>
          cases isPending with
          | true => exact absurd hat (hnot value)
          | false => exact .inr (.inl ⟨value, rfl, h.told value hat⟩)
      · exact absurd hnotConnected (by simp [receiveResult, isFailure_ne hfailure])
    · cases hst

/-- What recv says: on Linux that a connect goes on, or why it failed; what a connection gives; "not connected". -/
theorem receiveBytes_cases (p : Platform) (s : StreamSocket) (received : Except Nat Nat) :
    p = .linux ∧ s.link = .connecting ∧
        s.receiveBytes p received = (s, .error (Errc.operationWouldBlock.system .linux)) ∨
      (∃ error, s.link = .failed error true ∧
        s.receiveBytes p received = ({ s with link := .failed error false }, .error error)) ∨
      s.link = .connected ∧ s.receiveBytes p received = (s, received) ∨
      s.link ≠ .connected ∧ (p = .linux → s.link ≠ .connecting) ∧
        s.receiveBytes p received = (s, .error (Errc.notConnected.system p)) := by
  unfold receiveBytes
  split
  · rename_i hlink
    exact .inl ⟨rfl, hlink, rfl⟩
  · rename_i error hlink
    exact .inr (.inl ⟨error, hlink, rfl⟩)
  · rename_i hlink
    exact .inr (.inr (.inl ⟨hlink, rfl⟩))
  · rename_i hconnected hconnecting _
    exact .inr (.inr (.inr ⟨hconnected, hconnecting, rfl⟩))

theorem Follows.recv (h : Follows p is os s) {received : Except Nat Nat}
    (hst : s.step p (.recv received) = some (t, o)) :
    Follows p (is ++ [.recv received]) (os ++ [o]) t ∧ Tells p is (.recv received) os o t := by
  simp only [step] at hst
  split at hst
  swap
  · cases hst
  rename_i hguard
  obtain ⟨hcall, hreceived⟩ := hguard
  have hm : SocketMove.recv received ≠ .receive := fun heq => by cases heq
  rcases receiveBytes_cases p s received with ⟨rfl, hlink, hrecv⟩ | ⟨error, hlink, hrecv⟩ | ⟨hlink, hrecv⟩ |
    ⟨hlink, hlinux, hrecv⟩
  · rw [hrecv] at hst
    have hnot : (ErrorCode.mk (Errc.operationWouldBlock.system .linux) .system).is .linux .notConnected = false := rfl
    simp only [hnot, Bool.false_eq_true, if_false] at hst
    cases hst
    refine ⟨h.returns _ _, fun _ hfailed => (by cases hlink.symm.trans hfailed), h.stillTold _,
      fun ho => (by cases ho), ?_⟩
    intro other ho hnot'
    cases ho
    cases hnot'
  · rw [hrecv] at hst
    have hnot := isFailure_ne (h.failure error hlink) .notConnected
    simp only [hnot, Bool.false_eq_true, if_false] at hst
    cases hst
    have htold : ∀ other, Link.failed error false = .failed other false →
        Told (os ++ [.received (.error ⟨error, .system⟩)]) other := by
      intro other heq
      cases heq
      exact told_last rfl
    refine ⟨follows_idle rfl htold (fun _ hlink => by cases hlink), fun _ hlink => (by cases hlink), htold,
      fun ho => (by cases ho), ?_⟩
    intro other ho hnot'
    cases ho
    cases hnot.symm.trans hnot'
  · rw [hrecv] at hst
    cases received with
    | ok numBytes =>
      cases hst
      exact ⟨h.returns _ _, fun _ hfailed => (by cases hlink.symm.trans hfailed), h.stillTold _,
        fun ho => (by cases ho), fun _ ho => by cases ho⟩
    | error error =>
      have hnot : (ErrorCode.mk error .system).is p .notConnected = false := by
        simp only [isReceived, Bool.and_eq_true, decide_eq_true_eq] at hreceived
        exact decide_eq_false hreceived.2
      simp only [hnot, Bool.false_eq_true, if_false] at hst
      cases hst
      refine ⟨h.returns _ _, fun _ hfailed => (by cases hlink.symm.trans hfailed), h.stillTold _,
        fun ho => (by cases ho), ?_⟩
      intro other ho hnot'
      cases ho
      cases hnot.symm.trans hnot'
  · rw [hrecv] at hst
    have his : (ErrorCode.mk (Errc.notConnected.system p) .system).is p .notConnected = true := decide_eq_true rfl
    simp only [his, if_true] at hst
    cases hst
    obtain ⟨since, hsince⟩ := h.receive hcall
    refine ⟨⟨h.stillTold _, h.failure, fun hcall => (by cases hcall),
      fun hcall => (by cases hcall), ?_, fun _ hcall => by cases hcall⟩, tells_nothing h.told⟩
    intro other hcall'
    cases hcall'
    refine ⟨rfl, fun heq => ⟨hlinux heq, hlink⟩, since ++ [.recv received], hsince.concat hm, ?_⟩
    exact fun heq => absurd heq hlink

theorem Follows.step (h : Follows p is os s) (hst : s.step p m = some (t, o)) :
    Follows p (is ++ [m]) (os ++ [o]) t ∧ Tells p is m os o t := by
  cases m with
  | establish =>
    simp only [StreamSocket.step] at hst
    split at hst
    · rename_i hlink
      cases hst
      exact h.network hlink (.inl ⟨rfl, rfl⟩)
    · cases hst
  | refuse error =>
    simp only [StreamSocket.step] at hst
    split at hst
    · rename_i hrefused
      cases hst
      exact h.network hrefused.1 (.inr ⟨error, rfl, rfl, hrefused.2⟩)
    · cases hst
  | connect failure =>
    simp only [StreamSocket.step] at hst
    split at hst
    · rename_i hguard
      obtain ⟨rfl, rfl⟩ := Prod.mk.inj (Option.some.inj hst)
      exact connect_follows hguard.1 failure
    · cases hst
  | pollConnected =>
    simp only [StreamSocket.step] at hst
    split at hst
    · cases hst
      exact h.begins (.inl ⟨rfl, rfl⟩)
    · cases hst
  | receive =>
    simp only [StreamSocket.step] at hst
    split at hst
    · cases hst
      exact h.begins (.inr ⟨rfl, rfl⟩)
    · cases hst
  | poll isReady => exact h.poll hst
  | take failure since => exact h.take hst
  | recv received => exact h.recv hst

theorem follows_start (p : Platform) : Follows p [] [] {} :=
  follows_idle rfl (fun _ hlink => by cases hlink) fun _ hlink => by cases hlink

theorem follows_run (hrun : (socketMachine p).run {} is = some (s, os)) : Follows p is os s :=
  Machine.run_invariant (Follows p) [] [] (fun _ _ _ _ _ _ h hst => (h.step hst).1) (follows_start p) hrun

/-- How a connect ended is told, whenever the network ends it. A call that returns leaves no failure pending unless a
call of the system failed, and a failure is not forgotten untold; PollConnected is not content while the connect goes
on; and Receive says "not connected" only where there is no connection, its failure told before, or on Windows where it
was made while the very call ran. -/
theorem connect_told (hrun : (socketMachine p).run {} is = some (t, os ++ [o])) :
    ∃ before m, is = before ++ [m] ∧ Tells p before m os o t := by
  obtain ⟨before, m, s, rfl, hbefore, hlast⟩ := Machine.run_last hrun
  exact ⟨before, m, rfl, ((follows_run hbefore).step hlast).2⟩

/-- On Windows a connect is made between Receive's read and its poll. -/
def establishedMeanwhile : List SocketMove :=
  [.connect (some 10035), .receive, .recv (.ok 0), .establish, .poll (some true), .take none 0]

theorem connect_told_meanwhile : ∃ t os o, (socketMachine .windows).run {} establishedMeanwhile = some (t, os ++ [o]) ∧
    ∃ before m, establishedMeanwhile = before ++ [m] ∧ Tells .windows before m os o t := by
  have hrun : (socketMachine .windows).run {} establishedMeanwhile =
      some (⟨.connected, .idle⟩, [.connecting none, .nothing, .nothing, .nothing, .nothing] ++
        [.received (.error (notConnectedError .windows))]) := rfl
  exact ⟨_, _, _, hrun, connect_told hrun⟩

end StreamSocket

end TgeCore.Net
