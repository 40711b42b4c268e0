import TgeCore.IO.WriteSteps

namespace TgeCore.IO
open Library

variable {c : Call} {disk disk' : Files} {stage : Stage} {outcome : Outcome}

/-- The inode of a call that has returned with success: it holds all of the call's content, it is
on the disk, and no call writes to it any more. -/
structure Complete (s : Writers) (id : Nat) : Prop where
  written : ∃ (i : Nat) (c : Call), s.calls[i]? = some c ∧ c.stage = .done none ∧ s.disk.content id = some c.content
  synced : id ∉ s.disk.unsynced
  closed : ∀ (i : Nat) (c : Call) (o : Opened), s.calls[i]? = some c → c.stage.opened = some o → o.file ≠ id

/-- What holds of all callers that write to one target, at any moment. -/
structure Sound (target : Path) (before : Files) (s : Writers) : Prop where
  targets : ∀ (i : Nat) (c : Call), s.calls[i]? = some c → c.target = target
  opened : ∀ (i : Nat) (c : Call) (o : Opened), s.calls[i]? = some c → c.stage.opened = some o →
    before.inodes.length ≤ o.file ∧ s.disk.entries o.temporaryPath = some o.file ∧ o.temporaryPath ≠ target
  written : ∀ (i : Nat) (c : Call) (o : Opened) (w : List UInt8), s.calls[i]? = some c → c.stage.opened = some o →
    c.stage.written c.content = some w → s.disk.content o.file = some w
  synced : ∀ (i : Nat) (c : Call) (o : Opened), s.calls[i]? = some c → c.stage.opened = some o → c.stage.synced →
    o.file ∉ s.disk.unsynced
  apart : ∀ (i j : Nat) (c d : Call) (o o' : Opened), s.calls[i]? = some c → s.calls[j]? = some d →
    c.stage.opened = some o → d.stage.opened = some o' → o.file = o'.file → i = j
  linked : s.disk.Linked
  grown : before.inodes.length ≤ s.disk.inodes.length
  old : ∀ id < before.inodes.length, s.disk.content id = before.content id ∧ id ∉ s.disk.unsynced
  whole : ∀ dir ∈ s.disk.entries :: s.disk.past, dir target = before.entries target ∨
    ∃ id, dir target = some id ∧ Complete s id

/-- After a step of one call, each call is that one or as it was. -/
theorem set_cases {calls : List Call} {i j : Nat} {c d : Call} (h : (calls.set i c)[j]? = some d) :
    (j = i ∧ d = c) ∨ (j ≠ i ∧ calls[j]? = some d) := by
  rw [List.getElem?_set] at h
  split at h
  · rename_i hij
    split at h
    · cases h
      exact .inl ⟨hij.symm, rfl⟩
    · cases h
  · rename_i hij
    exact .inr ⟨Ne.symm hij, h⟩

section Act
variable {target : Path} {before : Files} {s : Writers} {i : Nat}

/-- A call that goes on was not done, so what is complete has another call to its name. -/
theorem Complete.act {id : Nat} (h : Complete s id) (hc : s.calls[i]? = some c) (hstage : c.stage ≠ .done none)
    (hcontent : disk'.content id = s.disk.content id) (hsynced : id ∉ disk'.unsynced)
    (hclosed : ∀ o, stage.opened = some o → o.file ≠ id) :
    Complete { disk := disk', calls := s.calls.set i { c with stage } } id := by
  obtain ⟨k, d, hd, hdone, hwritten⟩ := h.written
  refine ⟨⟨k, d, ?_, hdone, hcontent.trans hwritten⟩, hsynced, fun j d o hj ho => ?_⟩
  · rw [List.getElem?_set_ne, hd]
    rintro rfl
    cases hc.symm.trans hd
    exact hstage hdone
  · cases set_cases hj with
    | inl hself =>
      obtain ⟨-, rfl⟩ := hself
      exact hclosed o ho
    | inr hother => exact h.closed j d o hother.2 ho

/-- A step of one call keeps what holds if it gets its own file right, leaves those of the others
alone, and only replaces the target by a complete file. -/
theorem Sound.act (h : Sound target before s) (hc : s.calls[i]? = some c)
    (hown : ∀ o, stage.opened = some o → before.inodes.length ≤ o.file ∧ disk'.entries o.temporaryPath = some o.file ∧
      o.temporaryPath ≠ target ∧ (∀ w, stage.written c.content = some w → disk'.content o.file = some w) ∧
      (stage.synced → o.file ∉ disk'.unsynced))
    (hothers : ∀ (j : Nat) (d : Call) (o : Opened), j ≠ i → s.calls[j]? = some d → d.stage.opened = some o →
      disk'.entries o.temporaryPath = some o.file ∧ disk'.content o.file = s.disk.content o.file ∧
      (o.file ∉ s.disk.unsynced → o.file ∉ disk'.unsynced) ∧ ∀ o', stage.opened = some o' → o.file ≠ o'.file)
    (hlinked : disk'.Linked) (hgrown : s.disk.inodes.length ≤ disk'.inodes.length)
    (hold : ∀ id < before.inodes.length, disk'.content id = s.disk.content id ∧ id ∉ disk'.unsynced)
    (hwhole : ∀ dir ∈ disk'.entries :: disk'.past, dir target = before.entries target ∨
      ∃ id, dir target = some id ∧ Complete { disk := disk', calls := s.calls.set i { c with stage } } id) :
    Sound target before { disk := disk', calls := s.calls.set i { c with stage } } where
  targets := by
    intro j d hj
    cases set_cases hj with
    | inl hself =>
      obtain ⟨-, rfl⟩ := hself
      exact h.targets i c hc
    | inr hother => exact h.targets j d hother.2
  opened := by
    intro j d o hj ho
    cases set_cases hj with
    | inl hself =>
      obtain ⟨-, rfl⟩ := hself
      obtain ⟨hfile, hentry, hne, -⟩ := hown o ho
      exact ⟨hfile, hentry, hne⟩
    | inr hother =>
      obtain ⟨hfile, -, hne⟩ := h.opened j d o hother.2 ho
      exact ⟨hfile, (hothers j d o hother.1 hother.2 ho).1, hne⟩
  written := by
    intro j d o w hj ho hw
    cases set_cases hj with
    | inl hself =>
      obtain ⟨-, rfl⟩ := hself
      exact (hown o ho).2.2.2.1 w hw
    | inr hother =>
      exact (hothers j d o hother.1 hother.2 ho).2.1.trans (h.written j d o w hother.2 ho hw)
  synced := by
    intro j d o hj ho hs
    cases set_cases hj with
    | inl hself =>
      obtain ⟨-, rfl⟩ := hself
      exact (hown o ho).2.2.2.2 hs
    | inr hother => exact (hothers j d o hother.1 hother.2 ho).2.2.1 (h.synced j d o hother.2 ho hs)
  apart := by
    intro j k d e o o' hj hk ho ho' hfile
    cases set_cases hj with
    | inl hself =>
      obtain ⟨rfl, rfl⟩ := hself
      cases set_cases hk with
      | inl hself' => exact hself'.1.symm
      | inr hother' => exact absurd hfile.symm ((hothers k e o' hother'.1 hother'.2 ho').2.2.2 o ho)
    | inr hother =>
      cases set_cases hk with
      | inl hself' =>
        obtain ⟨rfl, rfl⟩ := hself'
        exact absurd hfile ((hothers j d o hother.1 hother.2 ho).2.2.2 o' ho')
      | inr hother' => exact h.apart j k d e o o' hother.2 hother'.2 ho ho' hfile
  linked := hlinked
  grown := Nat.le_trans h.grown hgrown
  old := by
    intro id hid
    obtain ⟨hcontent, hsynced⟩ := hold id hid
    exact ⟨hcontent.trans (h.old id hid).1, hsynced⟩
  whole := hwhole

theorem Sound.others_apart (h : Sound target before s) (hc : s.calls[i]? = some c) {o : Opened}
    (ho : c.stage.opened = some o) {j : Nat} {d : Call} {o' : Opened} (hj : j ≠ i) (hd : s.calls[j]? = some d)
    (ho' : d.stage.opened = some o') : o'.file ≠ o.file ∧ o'.temporaryPath ≠ o.temporaryPath := by
  have hfile : o'.file ≠ o.file := fun hsame => hj (h.apart j i d c o' o hd hc ho' ho hsame)
  refine ⟨hfile, fun hsame => hfile ?_⟩
  have hentry := (h.opened j d o' hd ho').2.1
  rw [hsame, (h.opened i c o hc ho).2.1] at hentry
  exact (Option.some.inj hentry).symm

theorem Sound.quiet (h : Sound target before s) (hc : s.calls[i]? = some c) (hstage : c.stage ≠ .done none)
    (hquiet : Quiet c s.disk disk' stage) :
    Sound target before { disk := disk', calls := s.calls.set i { c with stage } } := by
  have hsynced : ∀ id, id ∉ s.disk.unsynced → id ∉ disk'.unsynced := fun id hid hmem => hid (hquiet.unsynced id hmem)
  refine h.act hc (fun o ho => ?_) (fun j d o hj hd ho => ?_) ?_ (Nat.le_of_eq hquiet.length.symm)
    (fun id hid => ⟨hquiet.content id, hsynced id (h.old id hid).2⟩) (fun dir hdir => ?_)
  · have hopened := hquiet.opened o ho
    obtain ⟨hfile, hentry, hne⟩ := h.opened i c o hc hopened
    refine ⟨hfile, ?_, hne, fun w hw => ?_, fun hs => ?_⟩
    · rw [hquiet.entries]
      exact hentry
    · rw [hquiet.content]
      exact h.written i c o w hc hopened (hquiet.written w hw)
    · cases hquiet.synced o ho hs with
      | inl hbefore => exact hsynced _ (h.synced i c o hc hopened hbefore)
      | inr hafter => exact hafter
  · refine ⟨?_, hquiet.content o.file, hsynced o.file, fun o' ho' => ?_⟩
    · rw [hquiet.entries]
      exact (h.opened j d o hd ho).2.1
    · exact (h.others_apart hc (hquiet.opened o' ho') hj hd ho).1
  · unfold Disk.Linked
    rw [hquiet.entries, hquiet.past, hquiet.length]
    exact h.linked
  · rw [hquiet.entries, hquiet.past] at hdir
    cases h.whole dir hdir with
    | inl hbefore => exact .inl hbefore
    | inr hcomplete =>
      obtain ⟨id, hid, hcomplete⟩ := hcomplete
      refine .inr ⟨id, hid, hcomplete.act hc hstage (hquiet.content id) (hsynced id hcomplete.synced) fun o ho => ?_⟩
      exact hcomplete.closed i c o hc (hquiet.opened o ho)

theorem take_append_take_drop (content : List UInt8) (n count : Nat) :
    content.take n ++ (content.drop n).take count = content.take (n + count) := List.take_add.symm

theorem Sound.append (h : Sound target before s) (hc : s.calls[i]? = some c) {opened : Opened} {numWritten count : Nat}
    (hstage : c.stage = .write opened numWritten) :
    Sound target before
      { disk := s.disk.append opened.file ((c.content.drop numWritten).take count)
        calls := s.calls.set i { c with stage := c.writeAll opened (numWritten + count) } } := by
  have hopened : c.stage.opened = some opened := by
    rw [hstage]
    rfl
  obtain ⟨hfile, hentry, hne⟩ := h.opened i c opened hc hopened
  have hsynced : ∀ id, id ≠ opened.file → id ∉ s.disk.unsynced →
      id ∉ (s.disk.append opened.file ((c.content.drop numWritten).take count)).unsynced := by
    intro id hother hid hmem
    cases List.mem_cons.mp hmem with
    | inl hself => exact hother hself
    | inr hmem => exact hid hmem
  refine h.act hc (fun o ho => ?_) (fun j d o hj hd ho => ?_) ?_ ?_ (fun id hid => ?_) (fun dir hdir => ?_)
  · rw [writeAll_opened] at ho
    cases ho
    refine ⟨hfile, hentry, hne, fun w hw => ?_, fun hs => ?_⟩
    · rw [writeAll_written] at hw
      have hbefore : s.disk.content opened.file = some (c.content.take numWritten) :=
        h.written i c opened _ hc hopened (by rw [hstage]; rfl)
      rw [Disk.content_append_self, hbefore, Option.map_some, take_append_take_drop]
      exact hw
    · rw [writeAll_synced] at hs
      cases hs
  · obtain ⟨hapart, -⟩ := h.others_apart hc hopened hj hd ho
    refine ⟨(h.opened j d o hd ho).2.1, Disk.content_append _ _ _ (Ne.symm hapart), hsynced o.file hapart, fun o' ho' => ?_⟩
    rw [writeAll_opened] at ho'
    cases ho'
    exact hapart
  · intro dir hdir name id hid
    have hlt := h.linked dir hdir name id hid
    unfold Disk.append
    rwa [List.length_modify]
  · unfold Disk.append
    exact Nat.le_of_eq (List.length_modify ..).symm
  · have hother : id ≠ opened.file := by omega
    exact ⟨Disk.content_append _ _ _ (Ne.symm hother), hsynced id hother (h.old id hid).2⟩
  · cases h.whole dir hdir with
    | inl hbefore => exact .inl hbefore
    | inr hcomplete =>
      obtain ⟨id, hid, hcomplete⟩ := hcomplete
      have hother := hcomplete.closed i c opened hc hopened
      refine .inr ⟨id, hid, hcomplete.act hc ?_ (Disk.content_append _ _ _ hother)
        (hsynced id (Ne.symm hother) hcomplete.synced) fun o ho => ?_⟩
      · rw [hstage]
        simp
      · rw [writeAll_opened] at ho
        cases ho
        exact hother

theorem temporaryPath_ne {target letters : String} (h : letters.length = 6) : temporaryPath target letters ≠ target := by
  intro heq
  have hlength := congrArg String.length heq
  unfold temporaryPath at hlength
  rw [String.length_append, String.length_append, h] at hlength
  omega

theorem Sound.create (h : Sound target before s) (hc : s.calls[i]? = some c) (hstage : c.stage = .mkostemp)
    {letters : String} (hlength : letters.length = 6) (habsent : s.disk.entries (temporaryPath c.target letters) = none) :
    Sound target before
      { disk := s.disk.create (temporaryPath c.target letters) temporaryMode
        calls := s.calls.set i { c with stage := .stat ⟨temporaryPath c.target letters, s.disk.inodes.length⟩ } } := by
  have hne : temporaryPath c.target letters ≠ target := by
    have htarget := h.targets i c hc
    rw [htarget]
    exact temporaryPath_ne hlength
  have hsynced : ∀ id < s.disk.inodes.length, id ∉ s.disk.unsynced →
      id ∉ (s.disk.create (temporaryPath c.target letters) temporaryMode).unsynced := by
    intro id hid hbefore hmem
    cases List.mem_cons.mp hmem with
    | inl hself => omega
    | inr hmem => exact hbefore hmem
  have hentries : ∀ name, name ≠ temporaryPath c.target letters →
      (s.disk.create (temporaryPath c.target letters) temporaryMode).entries name = s.disk.entries name :=
    fun name hname => Function.update_of_ne hname _ _
  refine h.act hc (fun o ho => ?_) (fun j d o hj hd ho => ?_) ?_ ?_ (fun id hid => ?_) (fun dir hdir => ?_)
  · cases ho
    refine ⟨h.grown, Function.update_self .., hne, fun w hw => ?_, fun hs => ?_⟩
    · cases hw
      exact s.disk.content_create_new _ _
    · cases hs
  · obtain ⟨-, hentry, -⟩ := h.opened j d o hd ho
    have hlt := h.linked _ List.mem_cons_self _ _ hentry
    have hname : o.temporaryPath ≠ temporaryPath c.target letters := by
      intro hsame
      rw [hsame, habsent] at hentry
      cases hentry
    refine ⟨(hentries _ hname).trans hentry, s.disk.content_create _ _ hlt, hsynced o.file hlt, fun o' ho' => ?_⟩
    cases ho'
    exact Nat.ne_of_lt hlt
  · intro dir hdir name id hid
    have hlonger : (s.disk.create (temporaryPath c.target letters) temporaryMode).inodes.length =
        s.disk.inodes.length + 1 := by
      unfold Disk.create
      rw [List.length_append]
      rfl
    rw [hlonger]
    cases List.mem_cons.mp hdir with
    | inl hnow =>
      subst hnow
      by_cases hname : name = temporaryPath c.target letters
      · subst hname
        have hnew := (Function.update_self ..).symm.trans hid
        cases hnew
        exact Nat.lt_add_one _
      · rw [hentries name hname] at hid
        exact Nat.lt_succ_of_lt (h.linked _ List.mem_cons_self name id hid)
    | inr hpast => exact Nat.lt_succ_of_lt (h.linked dir hpast name id hid)
  · unfold Disk.create
    rw [List.length_append]
    exact Nat.le_add_right _ _
  · have hlt := Nat.lt_of_lt_of_le hid h.grown
    exact ⟨s.disk.content_create _ _ hlt, hsynced id hlt (h.old id hid).2⟩
  · have hkept : ∀ dir ∈ s.disk.entries :: s.disk.past, dir target = before.entries target ∨
        ∃ id, dir target = some id ∧ Complete
          { disk := s.disk.create (temporaryPath c.target letters) temporaryMode
            calls := s.calls.set i { c with stage := .stat ⟨temporaryPath c.target letters, s.disk.inodes.length⟩ } } id := by
      intro dir hdir
      cases h.whole dir hdir with
      | inl hbefore => exact .inl hbefore
      | inr hcomplete =>
        obtain ⟨id, hid, hcomplete⟩ := hcomplete
        have hlt := h.linked dir hdir target id hid
        refine .inr ⟨id, hid, hcomplete.act hc ?_ (s.disk.content_create _ _ hlt) (hsynced id hlt hcomplete.synced)
          fun o ho => ?_⟩
        · rw [hstage]
          simp
        · cases ho
          exact (Nat.ne_of_lt hlt).symm
    cases List.mem_cons.mp hdir with
    | inl hnow =>
      rw [hnow, hentries target (Ne.symm hne)]
      exact hkept _ List.mem_cons_self
    | inr hpast => exact hkept dir hpast

/-- Only names change, and only those that no other call uses. -/
theorem Sound.setEntries (h : Sound target before s) (hc : s.calls[i]? = some c) (hnone : stage.opened = none)
    {entries : Path → Option Nat}
    (hothers : ∀ (j : Nat) (d : Call) (o : Opened), j ≠ i → s.calls[j]? = some d → d.stage.opened = some o →
      entries o.temporaryPath = s.disk.entries o.temporaryPath)
    (hlinked : ∀ name id, entries name = some id → ∃ name', s.disk.entries name' = some id)
    (hwhole : ∀ dir ∈ entries :: s.disk.entries :: s.disk.past, dir target = before.entries target ∨
      ∃ id, dir target = some id ∧
        Complete { disk := s.disk.setEntries entries, calls := s.calls.set i { c with stage } } id) :
    Sound target before { disk := s.disk.setEntries entries, calls := s.calls.set i { c with stage } } := by
  refine h.act hc (fun o ho => ?_) (fun j d o hj hd ho => ?_) ?_ (Nat.le_refl _) (fun id hid => ?_) hwhole
  · rw [hnone] at ho
    cases ho
  · refine ⟨(hothers j d o hj hd ho).trans (h.opened j d o hd ho).2.1, rfl, fun hs => hs, fun o' ho' => ?_⟩
    rw [hnone] at ho'
    cases ho'
  · intro dir hdir name id hid
    cases List.mem_cons.mp hdir with
    | inl hnow =>
      subst hnow
      obtain ⟨name', hname'⟩ := hlinked name id hid
      exact h.linked _ List.mem_cons_self name' id hname'
    | inr hpast => exact h.linked dir hpast name id hid
  · exact ⟨rfl, (h.old id hid).2⟩

theorem Complete.names {id : Nat} (h : Complete s id) (hc : s.calls[i]? = some c) (hstage : c.stage ≠ .done none)
    (hnone : stage.opened = none) (entries : Path → Option Nat) :
    Complete { disk := s.disk.setEntries entries, calls := s.calls.set i { c with stage } } id := by
  refine h.act hc hstage rfl h.synced fun o ho => ?_
  rw [hnone] at ho
  cases ho

theorem Sound.unlink (h : Sound target before s) (hc : s.calls[i]? = some c) {opened : Opened} {error : ErrorCode}
    (hstage : c.stage = .remove opened error) :
    Sound target before
      { disk := s.disk.unlink opened.temporaryPath, calls := s.calls.set i { c with stage := .done (some error) } } := by
  have hopened : c.stage.opened = some opened := by
    rw [hstage]
    rfl
  have hgoesOn : c.stage ≠ .done none := by
    rw [hstage]
    simp
  have hother : ∀ name, name ≠ opened.temporaryPath →
      Function.update s.disk.entries opened.temporaryPath none name = s.disk.entries name :=
    fun name hname => Function.update_of_ne hname _ _
  refine h.setEntries hc rfl (fun j d o hj hd ho => ?_) (fun name id hid => ?_) (fun dir hdir => ?_)
  · exact hother _ (h.others_apart hc hopened hj hd ho).2
  · by_cases hname : name = opened.temporaryPath
    · rw [hname, Function.update_self] at hid
      cases hid
    · exact ⟨name, (hother name hname).symm.trans hid⟩
  · have hkept : ∀ dir ∈ s.disk.entries :: s.disk.past, dir target = before.entries target ∨
        ∃ id, dir target = some id ∧ Complete
          { disk := s.disk.unlink opened.temporaryPath, calls := s.calls.set i { c with stage := .done (some error) } } id := by
      intro dir hdir
      cases h.whole dir hdir with
      | inl hbefore => exact .inl hbefore
      | inr hcomplete =>
        obtain ⟨id, hid, hcomplete⟩ := hcomplete
        exact .inr ⟨id, hid, hcomplete.names hc hgoesOn rfl _⟩
    cases List.mem_cons.mp hdir with
    | inl hnow =>
      rw [hnow, hother target (Ne.symm (h.opened i c opened hc hopened).2.2)]
      exact hkept _ List.mem_cons_self
    | inr hpast => exact hkept dir hpast

/-- The name moves from the old file to one that is complete, as the call returns in the same step. -/
theorem Sound.rename (h : Sound target before s) (hc : s.calls[i]? = some c) {opened : Opened}
    (hstage : c.stage = .rename opened) :
    Sound target before
      { disk := s.disk.rename opened.temporaryPath c.target, calls := s.calls.set i { c with stage := .done none } } ∧
    (s.disk.rename opened.temporaryPath c.target).read target = some c.content := by
  have hopened : c.stage.opened = some opened := by
    rw [hstage]
    rfl
  have hgoesOn : c.stage ≠ .done none := by
    rw [hstage]
    simp
  obtain ⟨hfile, hentry, hne⟩ := h.opened i c opened hc hopened
  have htarget := h.targets i c hc
  have hcontent : s.disk.content opened.file = some c.content :=
    h.written i c opened c.content hc hopened (by rw [hstage]; rfl)
  have hnew : (s.disk.rename opened.temporaryPath c.target).entries target = some opened.file := by
    have hupdate : (s.disk.rename opened.temporaryPath c.target).entries = Function.update
        (Function.update s.disk.entries c.target (s.disk.entries opened.temporaryPath)) opened.temporaryPath none := rfl
    rw [hupdate, Function.update_of_ne (Ne.symm hne), htarget, Function.update_self, hentry]
  have hother : ∀ name, name ≠ opened.temporaryPath → name ≠ target →
      (s.disk.rename opened.temporaryPath c.target).entries name = s.disk.entries name := by
    intro name hname hname'
    have hupdate : (s.disk.rename opened.temporaryPath c.target).entries = Function.update
        (Function.update s.disk.entries c.target (s.disk.entries opened.temporaryPath)) opened.temporaryPath none := rfl
    rw [hupdate, Function.update_of_ne hname, htarget, Function.update_of_ne hname']
  have hcomplete : Complete
      { disk := s.disk.rename opened.temporaryPath c.target, calls := s.calls.set i { c with stage := .done none } }
      opened.file := by
    refine ⟨⟨i, { c with stage := .done none }, ?_, rfl, hcontent⟩, ?_, fun j d o hj ho => ?_⟩
    · exact List.getElem?_set_self (List.getElem?_eq_some_iff.mp hc).1
    · exact h.synced i c opened hc hopened (by rw [hstage]; rfl)
    · cases set_cases hj with
      | inl hself =>
        obtain ⟨-, rfl⟩ := hself
        cases ho
      | inr hother => exact (h.others_apart hc hopened hother.1 hother.2 ho).1
  refine ⟨h.setEntries hc rfl (fun j d o hj hd ho => ?_) (fun name id hid => ?_) (fun dir hdir => ?_), ?_⟩
  · exact hother _ (h.others_apart hc hopened hj hd ho).2 (h.opened j d o hd ho).2.2
  · by_cases hname : name = target
    · subst hname
      exact ⟨opened.temporaryPath, hentry.trans (hnew.symm.trans hid)⟩
    · by_cases hname' : name = opened.temporaryPath
      · rw [hname', Function.update_self] at hid
        cases hid
      · exact ⟨name, (hother name hname' hname).symm.trans hid⟩
  · cases List.mem_cons.mp hdir with
    | inl hnow => exact .inr ⟨opened.file, hnow ▸ hnew, hcomplete⟩
    | inr hpast =>
      cases h.whole dir hpast with
      | inl hbefore => exact .inl hbefore
      | inr hcomplete =>
        obtain ⟨id, hid, hcomplete⟩ := hcomplete
        exact .inr ⟨id, hid, hcomplete.names hc hgoesOn rfl _⟩
  · unfold Disk.read
    rw [hnew]
    exact hcontent

theorem Sound.call (h : Sound target before s) (content : List UInt8) :
    Sound target before { s with calls := s.calls ++ [⟨target, content, .mkostemp⟩] } := by
  have hcases : ∀ (j : Nat) (d : Call), (s.calls ++ [⟨target, content, .mkostemp⟩])[j]? = some d →
      s.calls[j]? = some d ∨ d = ⟨target, content, .mkostemp⟩ := by
    intro j d hj
    rw [List.getElem?_append] at hj
    split at hj
    · exact .inl hj
    · exact .inr (List.mem_singleton.mp (List.mem_of_getElem? hj))
  have hopen : ∀ (j : Nat) (d : Call) (o : Opened), (s.calls ++ [⟨target, content, .mkostemp⟩])[j]? = some d →
      d.stage.opened = some o → s.calls[j]? = some d := by
    intro j d o hj ho
    cases hcases j d hj with
    | inl hbefore => exact hbefore
    | inr hnew =>
      subst hnew
      cases ho
  exact {
    targets := by
      intro j d hj
      cases hcases j d hj with
      | inl hbefore => exact h.targets j d hbefore
      | inr hnew => rw [hnew]
    opened := fun j d o hj ho => h.opened j d o (hopen j d o hj ho) ho
    written := fun j d o w hj ho hw => h.written j d o w (hopen j d o hj ho) ho hw
    synced := fun j d o hj ho hs => h.synced j d o (hopen j d o hj ho) ho hs
    apart := fun j k d e o o' hj hk ho ho' hfile =>
      h.apart j k d e o o' (hopen j d o hj ho) (hopen k e o' hk ho') ho ho' hfile
    linked := h.linked
    grown := h.grown
    old := h.old
    whole := by
      intro dir hdir
      cases h.whole dir hdir with
      | inl hbefore => exact .inl hbefore
      | inr hcomplete =>
        obtain ⟨id, hid, hcomplete⟩ := hcomplete
        obtain ⟨k, d, hd, hdone, hwritten⟩ := hcomplete.written
        refine .inr ⟨id, hid, ⟨k, d, ?_, hdone, hwritten⟩, hcomplete.synced, fun j e o hj ho => ?_⟩
        · rw [List.getElem?_append_left (List.getElem?_eq_some_iff.mp hd).1, hd]
        · exact hcomplete.closed j e o (hopen j e o hj ho) ho }

theorem cut_opened (stage : Stage) : stage.cut.opened = none := by
  cases stage with
  | done error => rfl
  | _ => rfl

/-- Files that are complete or old are on the disk, so a loss of power does not tear them, and
the names it goes back to are of such files. -/
theorem Sound.powerLoss (h : Sound target before s) {torn : Nat → List UInt8} {back : Nat}
    (hloss : s.disk.powerLoss torn back = some disk') :
    Sound target before { disk := disk', calls := s.calls.map fun c => { c with stage := c.stage.cut } } := by
  have hcut : ∀ (j : Nat) (d : Call), (s.calls.map fun c => { c with stage := c.stage.cut })[j]? = some d →
      ∃ c, s.calls[j]? = some c ∧ d = { c with stage := c.stage.cut } := by
    intro j d hj
    rw [List.getElem?_map] at hj
    obtain ⟨c, hc, heq⟩ := Option.map_eq_some_iff.mp hj
    exact ⟨c, hc, heq.symm⟩
  have hclosed : ∀ (j : Nat) (d : Call) (o : Opened),
      (s.calls.map fun c => { c with stage := c.stage.cut })[j]? = some d → d.stage.opened ≠ some o := by
    intro j d o hj ho
    obtain ⟨c, -, rfl⟩ := hcut j d hj
    rw [cut_opened] at ho
    cases ho
  have hcontent : ∀ id, id ∉ s.disk.unsynced → disk'.content id = s.disk.content id :=
    fun id hid => Disk.content_powerLoss id hloss hid
  obtain ⟨entries, hentries, heq⟩ := Option.map_eq_some_iff.mp hloss
  have hmem : entries ∈ s.disk.entries :: s.disk.past := List.mem_of_getElem? hentries
  have hunsynced : disk'.unsynced = [] := by rw [← heq]
  have hlength : disk'.inodes.length = s.disk.inodes.length := by rw [← heq, List.length_mapIdx]
  have hdirs : ∀ dir ∈ disk'.entries :: disk'.past, dir ∈ s.disk.entries :: s.disk.past := by
    intro dir hdir
    rw [← heq] at hdir
    rw [List.mem_singleton.mp hdir]
    exact hmem
  exact {
    targets := by
      intro j d hj
      obtain ⟨c, hc, rfl⟩ := hcut j d hj
      exact h.targets j c hc
    opened := fun j d o hj ho => absurd ho (hclosed j d o hj)
    written := fun j d o w hj ho => absurd ho (hclosed j d o hj)
    synced := fun j d o hj ho => absurd ho (hclosed j d o hj)
    apart := fun j k d e o o' hj hk ho => absurd ho (hclosed j d o hj)
    linked := by
      intro dir hdir name id hid
      rw [hlength]
      exact h.linked dir (hdirs dir hdir) name id hid
    grown := by
      rw [hlength]
      exact h.grown
    old := by
      intro id hid
      obtain ⟨hbefore, hsynced⟩ := h.old id hid
      refine ⟨(hcontent id hsynced).trans hbefore, ?_⟩
      rw [hunsynced]
      exact List.not_mem_nil
    whole := by
      intro dir hdir
      cases h.whole dir (hdirs dir hdir) with
      | inl hbefore => exact .inl hbefore
      | inr hcomplete =>
        obtain ⟨id, hid, hcomplete⟩ := hcomplete
        obtain ⟨k, d, hd, hdone, hwritten⟩ := hcomplete.written
        refine .inr ⟨id, hid, ⟨k, { d with stage := d.stage.cut }, ?_, ?_, ?_⟩, ?_, fun j e o hj ho => ?_⟩
        · rw [List.getElem?_map, hd]
          rfl
        · rw [hdone]
          rfl
        · exact (hcontent id hcomplete.synced).trans hwritten
        · rw [hunsynced]
          exact List.not_mem_nil
        · exact absurd ho (hclosed j e o hj) }

end Act

/-- The step of a call keeps what holds, and a call that returns success has its content in place. -/
theorem Sound.step {target : Path} {before : Files} {s t : Writers} {event : FileEvent} {out : Option (Nat × Option ErrorCode)}
    (h : Sound target before s)
    (htarget : ∀ path canonical content, event = .call path canonical content → resolveLink path canonical = target)
    (hstep : s.step event = some (t, out)) : Sound target before t := by
  cases event with
  | call path canonical content =>
    cases hstep
    rw [htarget path canonical content rfl]
    exact h.call content
  | powerLoss torn back =>
    obtain ⟨disk', hloss, heq⟩ := Option.map_eq_some_iff.mp hstep
    cases heq
    exact h.powerLoss hloss
  | act i outcome =>
    obtain ⟨c, hc, hnext⟩ := Option.bind_eq_some_iff.mp hstep
    obtain ⟨⟨disk', stage⟩, hcall, heq⟩ := Option.map_eq_some_iff.mp hnext
    cases heq
    have hgoesOn : c.stage ≠ .done none := by
      intro hdone
      unfold Call.step at hcall
      rw [hdone] at hcall
      cases hcall
    cases Call.step_change hcall with
    | quiet hquiet => exact h.quiet hc hgoesOn hquiet
    | create letters hstage hlength habsent => exact h.create hc hstage hlength habsent
    | append opened numWritten count hstage hcount => exact h.append hc hstage
    | rename opened hstage => exact (h.rename hc hstage).1
    | unlink opened error hstage => exact h.unlink hc hstage

theorem Sound.start (target : Path) (files : OnDisk) : Sound target files.disk files.start := by
  have hnone : ∀ (i : Nat) (c : Call), files.start.calls[i]? ≠ some c := by
    intro i c hc
    cases hc
  exact {
    targets := fun i c hc => absurd hc (hnone i c)
    opened := fun i c o hc => absurd hc (hnone i c)
    written := fun i c o w hc => absurd hc (hnone i c)
    synced := fun i c o hc => absurd hc (hnone i c)
    apart := fun i j c d o o' hc => absurd hc (hnone i c)
    linked := by
      intro dir hdir name id hid
      rw [List.mem_singleton.mp hdir] at hid
      exact files.linked name id hid
    grown := Nat.le_refl _
    old := fun id hid => ⟨rfl, List.not_mem_nil⟩
    whole := by
      intro dir hdir
      rw [List.mem_singleton.mp hdir]
      exact .inl rfl }

end TgeCore.IO
