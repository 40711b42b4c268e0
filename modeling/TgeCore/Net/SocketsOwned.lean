import TgeCore.Net.OpenSockets

namespace TgeCore.Net
open Library Threading

/-- What the socket that a call has in hand is like, by how far the call is. -/
def SocketObject.Fits (p : Platform) (o : SocketObject) (known : OpenSocket) : Prop :=
  match o.stage with
  | .idle | .setNonBlocking _ | .close => known.Ready o
  | .opening | .accept _ => True
  | .openNonBlocking _ => p = .windows ∧ known = newSocket p (o.kind = .udp)
  | .bind _ => known = { newSocket p (o.kind = .udp) with isNonBlocking := true }
  | .listen _ => o.kind = .listener ∧ known = { newSocket p false with isNonBlocking := true, isBound := true }
  | .turnOffReports _ => o.kind = .udp ∧ known = { newSocket p true with isNonBlocking := true, isBound := true }
  | .acceptUninherited _ => p = .windows ∧ o.kind = .stream ∧ known = newConnection p
  | .acceptNonBlocking _ => o.kind = .stream ∧ known = { newConnection p with isInheritable := false }
  | .abort _ _ => known.isInheritable = true → p = .windows ∧ o.kind = .stream

/-- An object has no socket while a call is there to get it one, and a call has none in hand that is no socket. -/
def SocketObject.Placed (o : SocketObject) : Prop :=
  match o.stage with
  | .idle => True
  | .setNonBlocking _ | .close => o.m_socket ≠ NoSocket
  | .opening => o.m_socket = NoSocket
  | .accept _ => o.m_socket = NoSocket ∧ o.kind = .stream
  | .openNonBlocking socket | .turnOffReports socket | .listen socket
  | .acceptUninherited socket | .acceptNonBlocking socket | .abort socket _ =>
    o.m_socket = NoSocket ∧ socket ≠ NoSocket
  | .bind socket => o.m_socket = NoSocket ∧ socket ≠ NoSocket ∧ o.kind ≠ .stream

namespace SocketObject
variable {p : Platform} {o : SocketObject} {socket : UInt64} {known : OpenSocket}

theorem Ready.congr {o' : SocketObject} (h : known.Ready o) (hkind : o'.kind = o.kind)
    (hblocking : o'.isBlocking = o.isBlocking) : known.Ready o' where
  datagram := hkind ▸ h.datagram
  blocking := hblocking ▸ h.blocking
  kept := h.kept
  bound := hkind ▸ h.bound
  listening := hkind ▸ h.listening
  reports := hkind ▸ h.reports

theorem placed_finish : (o.finish socket).Placed := trivial

section Hand
variable (hne : socket ≠ NoSocket)
include hne

theorem holds_finish : (o.finish socket).holds = some socket := by
  simp [finish, holds, hne]

theorem holds_opened : (o.opened socket).holds = some socket := by
  unfold opened
  split
  · exact holds_finish hne
  · rfl
  · rfl

theorem placed_opened (hnone : o.m_socket = NoSocket) : (o.opened socket).Placed := by
  unfold opened
  split
  · exact placed_finish
  · rename_i hkind
    exact ⟨hnone, hne, by simp [hkind]⟩
  · rename_i hkind
    exact ⟨hnone, hne, by simp [hkind]⟩

theorem holds_bound : (o.bound p socket).holds = some socket := by
  unfold bound
  split
  · rfl
  · rfl
  · exact holds_finish hne

theorem placed_bound (hnone : o.m_socket = NoSocket) : (o.bound p socket).Placed := by
  unfold bound
  split
  · exact ⟨hnone, hne⟩
  · exact ⟨hnone, hne⟩
  · exact placed_finish

end Hand

/-- A socket that OpenSocket gives is ready for a stream, and for the others to be bound. -/
theorem fits_opened : (o.opened socket).Fits p { newSocket p (o.kind = .udp) with isNonBlocking := true } := by
  unfold opened
  split
  · rename_i hkind
    exact ⟨by simp [newSocket, finish, hkind], rfl, rfl, fun h => absurd hkind h, by simp [finish, hkind],
      by simp [finish, hkind]⟩
  · exact rfl
  · exact rfl

/-- One that is bound is ready for a datagram socket on Linux; a listener listens first, and Windows has reports to
turn off. -/
theorem fits_bound (hkind : o.kind ≠ .stream) : (o.bound p socket).Fits p
    { newSocket p (o.kind = .udp) with isNonBlocking := true, isBound := true } := by
  cases hk : o.kind with
  | stream => exact absurd hk hkind
  | listener => simp [bound, Fits, hk]
  | udp =>
    cases p with
    | windows => simp [bound, Fits, hk]
    | linux =>
      simp only [bound, hk, Fits, finish]
      exact ⟨by simp [newSocket], rfl, rfl, fun _ => rfl, by simp, fun _ => rfl⟩

theorem stage_of_isIdle (h : o.isIdle = true) : o.stage = .idle := by
  unfold isIdle at h
  split at h
  · assumption
  · cases h

theorem holds_idle (o : SocketObject) (h : o.isIdle = true) (hnone : o.m_socket = NoSocket) : o.holds = none := by
  simp [holds, stage_of_isIdle h, hnone]

end SocketObject

namespace SocketObjects
variable {p : Platform} {s t : SocketObjects} {i : Nat} {o o' : SocketObject} {socket : UInt64} {seen : ObjectSeen}

structure Inv (p : Platform) (s : SocketObjects) : Prop where
  placed : ∀ o ∈ s.objects, o.Placed
  held : HeldOnce SocketObject.holds (SocketObject.Fits p) s.sockets s.objects

/-- A step keeps what holds of the sockets, and is no fault. -/
def Keeps (p : Platform) (next : SocketObjects × ObjectSeen) : Prop := Inv p next.1 ∧ ∀ i, next.2 ≠ .fault i

theorem goes_ne_fault (i j : Nat) (o : SocketObject) : goes i o ≠ .fault j := by
  unfold goes
  split <;> exact fun h => by cases h

section Moves
variable (h : Inv p s) (hi : s.objects[i]? = some o)
include h hi

omit hi in
theorem Inv.placed_set (hplaced : o'.Placed) : ∀ a ∈ s.objects.set i o', a.Placed := by
  intro a ha
  rcases List.mem_or_eq_of_mem_set ha with ha | rfl
  · exact h.placed a ha
  · exact hplaced

/-- A call begins or ends with nothing in hand. -/
theorem Inv.pass (ho : o.holds = none) (ho' : o'.holds = none) (hplaced : o'.Placed) (hseen : ∀ j, seen ≠ .fault j) :
    Keeps p (s.put i o' seen) :=
  ⟨⟨h.placed_set hplaced, h.held.idle hi ho ho'⟩, hseen⟩

/-- A call goes on with what is in hand as it is. -/
theorem Inv.carry (ho : o.holds = some socket) (ho' : o'.holds = some socket) (hplaced : o'.Placed)
    (hfits : ∀ known, o.Fits p known → o'.Fits p known) (hseen : ∀ j, seen ≠ .fault j) :
    Keeps p (s.put i o' seen) := by
  obtain ⟨known, hknown, hfit⟩ := h.held.fit o (List.mem_of_getElem? hi) socket ho
  exact ⟨⟨h.placed_set hplaced, h.held.keep hi ho ho' (fun _ _ => rfl) hknown (hfits known hfit)⟩, hseen⟩

/-- A call begins on an object that has a socket. -/
theorem Inv.begins (hidle : o.isIdle = true) (hsome : o.m_socket ≠ NoSocket) (ho' : o'.holds = some o.m_socket)
    (hplaced : o'.Placed) (hfits : ∀ known : OpenSocket, known.Ready o → o'.Fits p known)
    (hseen : ∀ j, seen ≠ .fault j) : Keeps p (s.put i o' seen) := by
  have hstage := SocketObject.stage_of_isIdle hidle
  refine h.carry hi (by simp [SocketObject.holds, hstage, hsome]) ho' hplaced (fun known hfit => ?_) hseen
  simp only [SocketObject.Fits, hstage] at hfit
  exact hfits known hfit

/-- Or with something about it changed. -/
theorem Inv.change (ho : o.holds = some socket) (ho' : o'.holds = some socket) (hplaced : o'.Placed)
    {f : OpenSocket → OpenSocket} (hfits : ∀ known, o.Fits p known → o'.Fits p (f known))
    (hseen : ∀ j, seen ≠ .fault j) :
    Keeps p (s.change i socket (fun known => some (f known)) (s.put i o' seen)) := by
  obtain ⟨known, hknown, hfit⟩ := h.held.fit o (List.mem_of_getElem? hi) socket ho
  simp only [SocketObjects.change, hknown]
  refine ⟨⟨h.placed_set hplaced, ?_⟩, hseen⟩
  exact h.held.keep hi ho ho' (fun other hne => Function.update_of_ne hne ..) (Function.update_self ..)
    (hfits known hfit)

/-- A call is over, and what it has in hand is the object's. -/
theorem Inv.finish (ho : o.holds = some socket) (hne : socket ≠ NoSocket) {f : OpenSocket → OpenSocket}
    (hready : ∀ known, o.Fits p known → (f known).Ready (o.finish socket)) :
    Keeps p (s.change i socket (fun known => some (f known))
      (s.put i (o.finish socket) (goes i (o.finish socket)))) :=
  h.change hi ho (SocketObject.holds_finish hne) SocketObject.placed_finish hready fun j => goes_ne_fault i j _

/-- What is in hand is closed. -/
theorem Inv.drop (ho : o.holds = some socket) (ho' : o'.holds = none) (hplaced : o'.Placed)
    (hseen : ∀ j, seen ≠ .fault j) : Keeps p (s.change i socket (fun _ => none) (s.put i o' seen)) := by
  obtain ⟨known, hknown, -⟩ := h.held.fit o (List.mem_of_getElem? hi) socket ho
  simp only [SocketObjects.change, hknown]
  refine ⟨⟨h.placed_set hplaced, ?_⟩, hseen⟩
  exact h.held.release hi ho ho' (fun other hne => Function.update_of_ne hne ..) (Function.update_self ..)

/-- A call gets a socket. -/
theorem Inv.add (ho : o.holds = none) (ho' : o'.holds = some socket) (hplaced : o'.Placed)
    (hnone : s.sockets socket = none) {known : OpenSocket} (hfits : o'.Fits p known) (hseen : ∀ j, seen ≠ .fault j) :
    Keeps p (s.add socket known (s.put i o' seen)) := by
  refine ⟨⟨h.placed_set hplaced, ?_⟩, hseen⟩
  exact h.held.take hi ho ho' hnone (fun other hne => Function.update_of_ne hne ..) (Function.update_self ..) hfits

theorem Inv.actSocket {next : SocketObjects × ObjectSeen} (hst : s.actSocket p i o socket = some next) :
    Keeps p next := by
  have hplaced := h.placed o (List.mem_of_getElem? hi)
  unfold SocketObjects.actSocket at hst
  split at hst
  · rename_i hfresh
    obtain ⟨hne, hnone⟩ := hfresh
    split at hst
    · rename_i hstage
      simp only [SocketObject.Placed, hstage] at hplaced
      have ho : o.holds = none := by simp [SocketObject.holds, hstage]
      cases p with
      | linux =>
        cases hst
        exact h.add hi ho (SocketObject.holds_opened hne) (SocketObject.placed_opened hne hplaced) hnone
          SocketObject.fits_opened fun j => goes_ne_fault i j _
      | windows =>
        cases hst
        refine h.add hi ho ?_ ?_ hnone ?_ fun j => goes_ne_fault i j _
        · rfl
        · exact ⟨hplaced, hne⟩
        · exact ⟨rfl, rfl⟩
    · rename_i listener hstage
      simp only [SocketObject.Placed, hstage] at hplaced
      have ho : o.holds = none := by simp [SocketObject.holds, hstage]
      split at hst
      · cases p with
        | linux =>
          cases hst
          refine h.add hi ho (SocketObject.holds_finish hne) SocketObject.placed_finish hnone ?_
            fun j => goes_ne_fault i j _
          exact ⟨by simp [newConnection, SocketObject.finish, hplaced.2], rfl, rfl, fun _ => rfl,
            by simp [SocketObject.finish, hplaced.2], fun _ => rfl⟩
        | windows =>
          cases hst
          refine h.add hi ho ?_ ?_ hnone ?_ fun j => goes_ne_fault i j _
          · rfl
          · exact ⟨hplaced.1, hne⟩
          · exact ⟨rfl, hplaced.2, rfl⟩
      · cases hst
    · cases hst
  · cases hst

theorem Inv.actFailed {error : ErrorCode} {next : SocketObjects × ObjectSeen}
    (hst : s.actFailed p i o error = some next) : Keeps p next := by
  have hplaced := h.placed o (List.mem_of_getElem? hi)
  have hreturned : ∀ (result : Except ErrorCode Bool) (j : Nat), ObjectSeen.returned i result ≠ .fault j :=
    fun result j hsame => by cases hsame
  have hnothing : ∀ j, ObjectSeen.nothing ≠ .fault j := fun j hsame => by cases hsame
  unfold SocketObjects.actFailed at hst
  cases hstage : o.stage with
  | idle | abort | close =>
    simp only [hstage] at hst
    cases hst
  | opening | accept listener =>
    simp only [hstage, Option.some.injEq] at hst
    subst hst
    simp only [SocketObject.Placed, hstage] at hplaced
    refine h.pass hi (by simp [SocketObject.holds, hstage]) ?_ trivial (hreturned _)
    simp [SocketObject.holds, hplaced]
  | setNonBlocking isNonBlocking =>
    simp only [hstage, Option.some.injEq] at hst
    subst hst
    simp only [SocketObject.Placed, hstage] at hplaced
    have ho : o.holds = some o.m_socket := by simp [SocketObject.holds, hstage, hplaced]
    refine h.carry hi ho ?_ trivial ?_ (hreturned _)
    · simp [SocketObject.holds, hplaced]
    · intro known hfit
      simp only [SocketObject.Fits, hstage] at hfit
      exact SocketObject.Ready.congr hfit rfl rfl
  | openNonBlocking socket | bind socket | listen socket | turnOffReports socket | acceptUninherited socket
  | acceptNonBlocking socket =>
    simp only [hstage, Option.some.injEq] at hst
    subst hst
    simp only [SocketObject.Placed, hstage] at hplaced
    refine h.carry hi (by simp [SocketObject.holds, hstage]) rfl ?_ ?_ hnothing
    · first
      | exact hplaced
      | exact ⟨hplaced.1, hplaced.2.1⟩
    · intro known hfit hinherited
      simp only [SocketObject.Fits, hstage] at hfit
      simp_all [newSocket, newConnection]

theorem Inv.actDone {next : SocketObjects × ObjectSeen} (hst : s.actDone p i o = some next) : Keeps p next := by
  have hplaced := h.placed o (List.mem_of_getElem? hi)
  unfold SocketObjects.actDone at hst
  cases hstage : o.stage with
  | idle | opening | accept =>
    simp only [hstage] at hst
    cases hst
  | openNonBlocking socket =>
    simp only [hstage, Option.some.injEq] at hst
    subst hst
    simp only [SocketObject.Placed, hstage] at hplaced
    obtain ⟨hnone, hne⟩ := hplaced
    refine h.change hi (by simp [SocketObject.holds, hstage]) (SocketObject.holds_opened hne)
      (SocketObject.placed_opened hne hnone) ?_ fun j => goes_ne_fault i j _
    intro known hfit
    simp only [SocketObject.Fits, hstage] at hfit
    rw [hfit.2]
    exact SocketObject.fits_opened
  | bind socket =>
    simp only [hstage, Option.some.injEq] at hst
    subst hst
    simp only [SocketObject.Placed, hstage] at hplaced
    obtain ⟨hnone, hne, hkind⟩ := hplaced
    refine h.change hi (by simp [SocketObject.holds, hstage]) (SocketObject.holds_bound hne)
      (SocketObject.placed_bound hne hnone) ?_ fun j => goes_ne_fault i j _
    intro known hfit
    simp only [SocketObject.Fits, hstage] at hfit
    rw [hfit]
    exact SocketObject.fits_bound hkind
  | listen socket =>
    simp only [hstage, Option.some.injEq] at hst
    subst hst
    simp only [SocketObject.Placed, hstage] at hplaced
    refine h.finish hi (by simp [SocketObject.holds, hstage]) hplaced.2 fun known hfit => ?_
    simp only [SocketObject.Fits, hstage] at hfit
    obtain ⟨hkind, rfl⟩ := hfit
    exact ⟨by simp [newSocket, SocketObject.finish, hkind], rfl, rfl, fun _ => rfl, fun _ => rfl,
      by simp [SocketObject.finish, hkind]⟩
  | turnOffReports socket =>
    simp only [hstage, Option.some.injEq] at hst
    subst hst
    simp only [SocketObject.Placed, hstage] at hplaced
    refine h.finish hi (by simp [SocketObject.holds, hstage]) hplaced.2 fun known hfit => ?_
    simp only [SocketObject.Fits, hstage] at hfit
    obtain ⟨hkind, rfl⟩ := hfit
    exact ⟨by simp [newSocket, SocketObject.finish, hkind], rfl, rfl, fun _ => rfl,
      by simp [SocketObject.finish, hkind], fun _ => rfl⟩
  | acceptUninherited socket =>
    simp only [hstage, Option.some.injEq] at hst
    subst hst
    simp only [SocketObject.Placed, hstage] at hplaced
    refine h.change hi (by simp [SocketObject.holds, hstage]) ?_ ?_ ?_ fun j => goes_ne_fault i j _
    · rfl
    · exact hplaced
    · intro known hfit
      simp only [SocketObject.Fits, hstage] at hfit
      obtain ⟨-, hkind, rfl⟩ := hfit
      exact ⟨hkind, rfl⟩
  | acceptNonBlocking socket =>
    simp only [hstage, Option.some.injEq] at hst
    subst hst
    simp only [SocketObject.Placed, hstage] at hplaced
    refine h.finish hi (by simp [SocketObject.holds, hstage]) hplaced.2 fun known hfit => ?_
    simp only [SocketObject.Fits, hstage] at hfit
    obtain ⟨hkind, rfl⟩ := hfit
    exact ⟨by simp [newConnection, SocketObject.finish, hkind], rfl, rfl, fun _ => rfl,
      by simp [SocketObject.finish, hkind], fun _ => rfl⟩
  | abort socket result =>
    simp only [hstage, Option.some.injEq] at hst
    subst hst
    simp only [SocketObject.Placed, hstage] at hplaced
    refine h.drop hi (by simp [SocketObject.holds, hstage]) ?_ trivial fun j hsame => by cases hsame
    simp [SocketObject.holds, hplaced.1]
  | setNonBlocking isNonBlocking =>
    simp only [hstage, Option.some.injEq] at hst
    subst hst
    simp only [SocketObject.Placed, hstage] at hplaced
    refine h.change hi ?_ ?_ ?_ ?_ fun j => goes_ne_fault i j _
    · simp [SocketObject.holds, hstage, hplaced]
    · simp [SocketObject.holds, hplaced]
    · trivial
    · intro known hfit
      simp only [SocketObject.Fits, hstage] at hfit
      exact ⟨hfit.datagram, (Bool.not_not isNonBlocking).symm, hfit.kept, hfit.bound, hfit.listening, hfit.reports⟩
  | close =>
    simp only [hstage, Option.some.injEq] at hst
    subst hst
    simp only [SocketObject.Placed, hstage] at hplaced
    refine h.drop hi ?_ ?_ trivial fun j => goes_ne_fault i j _
    · simp [SocketObject.holds, hstage, hplaced]
    · simp [SocketObject.holds]

end Moves

theorem Inv.step (h : Inv p s) {m : ObjectMove} {next : SocketObjects × ObjectSeen} (hst : s.step p m = some next) :
    Keeps p next := by
  have hnothing : ∀ j, ObjectSeen.nothing ≠ .fault j := fun j hsame => by cases hsame
  cases m with
  | make kind =>
    cases hst
    refine ⟨⟨fun o ho => ?_, h.held.append (by simp [SocketObject.holds])⟩, hnothing⟩
    rcases List.mem_append.mp ho with ho | ho
    · exact h.placed o ho
    · obtain rfl := List.mem_singleton.mp ho
      exact trivial
  | initializeAt i =>
    obtain ⟨o, hi, hst⟩ := Option.bind_eq_some_iff.mp hst
    split at hst
    · rename_i hasked
      cases hst
      exact h.pass hi (o.holds_idle hasked.1 hasked.2) rfl hasked.2 hnothing
    · cases hst
  | acceptInto i listener =>
    obtain ⟨o, hi, hst⟩ := Option.bind_eq_some_iff.mp hst
    obtain ⟨l, -, hst⟩ := Option.bind_eq_some_iff.mp hst
    split at hst
    · rename_i hasked
      obtain ⟨hidle, hnone, hkind, -⟩ := hasked
      cases hst
      exact h.pass hi (o.holds_idle hidle hnone) rfl ⟨hnone, hkind⟩ hnothing
    · cases hst
  | setBlocking i =>
    obtain ⟨o, hi, hst⟩ := Option.bind_eq_some_iff.mp hst
    split at hst
    · rename_i hasked
      obtain ⟨hidle, hsome, hkind⟩ := hasked
      cases hst
      refine h.begins hi hidle hsome ?_ hsome ?_ hnothing
      · simp [SocketObject.holds, hsome]
      · exact fun known hready => SocketObject.Ready.congr hready rfl rfl
    · cases hst
  | terminate i =>
    obtain ⟨o, hi, hst⟩ := Option.bind_eq_some_iff.mp hst
    split at hst
    · rename_i hidle
      split at hst
      · cases hst
        exact ⟨h, fun j hsame => by cases hsame⟩
      · rename_i hsome
        cases hst
        refine h.begins hi hidle hsome ?_ hsome ?_ hnothing
        · simp [SocketObject.holds, hsome]
        · exact fun known hready => SocketObject.Ready.congr hready rfl rfl
    · cases hst
  | act i outcome =>
    obtain ⟨o, hi, hst⟩ := Option.bind_eq_some_iff.mp hst
    cases outcome with
    | socket socket => exact h.actSocket hi hst
    | done => exact h.actDone hi hst
    | failed error => exact h.actFailed hi hst

theorem Inv.inherited (h : Inv p s) {known : OpenSocket} (hknown : s.sockets socket = some known)
    (hinherited : known.isInheritable = true) : p = .windows ∧ ∃ o ∈ s.objects, o.kind = .stream ∧
      (o.stage = .acceptUninherited socket ∨ ∃ result, o.stage = .abort socket result) := by
  obtain ⟨o, ho, hheld⟩ := h.held.owned socket known hknown
  obtain ⟨known', hknown', hfit⟩ := h.held.fit o ho socket hheld
  obtain rfl : known = known' := Option.some.inj (hknown.symm.trans hknown')
  unfold SocketObject.holds at hheld
  unfold SocketObject.Fits at hfit
  cases hstage : o.stage with
  | idle | setNonBlocking | close =>
    simp only [hstage] at hfit
    rw [hfit.kept] at hinherited
    cases hinherited
  | opening | accept =>
    simp only [hstage] at hheld
    cases hheld
  | openNonBlocking | bind | listen | turnOffReports | acceptNonBlocking =>
    simp only [hstage] at hfit
    simp_all [newSocket, newConnection]
  | acceptUninherited other =>
    simp only [hstage, Option.some.injEq] at hheld hfit
    exact ⟨hfit.1, o, ho, hfit.2.1, .inl (hheld ▸ hstage)⟩
  | abort other result =>
    simp only [hstage, Option.some.injEq] at hheld hfit
    obtain ⟨hwindows, hkind⟩ := hfit hinherited
    exact ⟨hwindows, o, ho, hkind, .inr ⟨result, hheld ▸ hstage⟩⟩

theorem Inv.socketsOwned (h : Inv p s) {seen : List ObjectSeen} (hfault : ∀ i, .fault i ∉ seen) :
    SocketsOwned p s seen where
  there o ho socket hheld := by
    obtain ⟨known, hknown, -⟩ := h.held.fit o ho socket hheld
    rw [hknown]
    rfl
  owned socket known hknown := by
    obtain ⟨o, ho, hheld⟩ := h.held.owned socket known hknown
    obtain ⟨i, hi⟩ := List.mem_iff_getElem?.mp ho
    exact ⟨i, o, hi, hheld, fun j other hj hother => h.held.sole j i other o socket hj hi hother hheld⟩
  ready o ho hidle hsome := by
    have hstage := SocketObject.stage_of_isIdle hidle
    obtain ⟨known, hknown, hfit⟩ := h.held.fit o ho o.m_socket (by simp [SocketObject.holds, hstage, hsome])
    simp only [SocketObject.Fits, hstage] at hfit
    exact ⟨known, hknown, hfit⟩
  inherited socket known := h.inherited
  noFault := hfault

/-- However the calls on any number of objects come together and whichever of their system calls fail, the open sockets
are those the objects have, and none is set up or closed that is not open. -/
theorem sockets_are_owned {ms : List ObjectMove} {seen : List ObjectSeen}
    (hr : (objectMachine p).run {} ms = some (s, seen)) : SocketsOwned p s seen := by
  have hstart : Inv p {} := ⟨fun o ho => absurd ho List.not_mem_nil, .nil⟩
  have hstep : ∀ (is : List ObjectMove) (os : List ObjectSeen) (s : SocketObjects) (m : ObjectMove)
      (t : SocketObjects) (o : ObjectSeen), (Inv p s ∧ ∀ i, .fault i ∉ os) →
      (objectMachine p).step s m = some (t, o) → Inv p t ∧ ∀ i, .fault i ∉ os ++ [o] := by
    intro is os s m t o hinv hst
    obtain ⟨hsound, hnone⟩ := hinv
    have hkept : Keeps p (t, o) := hsound.step hst
    refine ⟨hkept.1, fun i hmem => ?_⟩
    rcases List.mem_append.mp hmem with hmem | hmem
    · exact hnone i hmem
    · exact hkept.2 i (List.mem_singleton.mp hmem).symm
  obtain ⟨hsound, hnone⟩ := Machine.run_invariant (fun _ os s => Inv p s ∧ ∀ i, ObjectSeen.fault i ∉ os) [] []
    hstep ⟨hstart, fun i => List.not_mem_nil⟩ hr
  exact hsound.socketsOwned hnone

/-- On Windows a listener opens and a connection is accepted, but not kept: the handle cannot be made one that no child
gets. A socket that opens at the same time gets the number that this frees. -/
theorem sockets_are_owned_refused : ∃ s seen, (objectMachine .windows).run {}
    [.make .listener, .make .stream, .make .udp, .initializeAt 0, .act 0 (.socket 5), .act 0 .done, .act 0 .done,
      .act 0 .done, .acceptInto 1 0, .act 1 (.socket 6), .act 1 (.failed 5), .initializeAt 2, .act 1 .done,
      .act 2 (.socket 6), .act 2 .done, .act 2 .done, .act 2 .done, .terminate 0, .act 0 .done] = some (s, seen) ∧
      SocketsOwned .windows s seen := by
  have hsome : ((objectMachine .windows).run {}
    [.make .listener, .make .stream, .make .udp, .initializeAt 0, .act 0 (.socket 5), .act 0 .done, .act 0 .done,
      .act 0 .done, .acceptInto 1 0, .act 1 (.socket 6), .act 1 (.failed 5), .initializeAt 2, .act 1 .done,
      .act 2 (.socket 6), .act 2 .done, .act 2 .done, .act 2 .done, .terminate 0,
      .act 0 .done]).isSome = true := by decide +kernel
  obtain ⟨⟨s, seen⟩, hr⟩ := Option.isSome_iff_exists.mp hsome
  exact ⟨s, seen, hr, sockets_are_owned hr⟩

end SocketObjects

end TgeCore.Net
