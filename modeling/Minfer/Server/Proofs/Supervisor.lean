/-
Who is told what when the worker dies.

A job's event sender is dropped in three ways: with its terminal event, by
a panic that unwinds over it, and with the receiver when the supervisor
gives up. The invariant (`Process.Inv`) ties every job to the first way:
what is held or queued has had no terminal event and is still open, what
was given up has had exactly one. Two steps can break it (`Lossless`), and
a step that does shows at once: its jobs are closed with no terminal
event, and their handlers read that as the end of an empty answer.
-/
import Minfer.Server.Worker

namespace Minfer.Server

variable {P : CallParser}

-- ===================== what is claimed

namespace Handler

/-- The worker sent `Finish`. -/
def Finished (h : Handler P) : Prop :=
  ∃ reason tokens, StreamEvent.finish reason tokens ∈ h.sent

/-- The client was told success: `collect_response` returned `Ok`, or the
stream ended without an error frame. -/
def Succeeded (h : Handler P) : Prop :=
  match h.phase with
  | .completed _ => True
  | .streamed frames => ∀ e, Frame.error e ∉ frames
  | _ => False

/-- The terminal events of the job, so far. -/
def terminals (h : Handler P) : List StreamEvent := h.sent.filter (·.terminal)

end Handler

/-- Every accepted job has at most one terminal event, and exactly one once
its event sender is dropped; success is told only to a job that finished. -/
structure Process.Answered (s : Process P) : Prop where
  atMostOnce : ∀ h ∈ s.handlers, h.accepted = true → h.terminals.length ≤ 1
  once : ∀ h ∈ s.handlers, h.accepted = true → h.closed = true →
    h.terminals.length = 1
  honest : ∀ h ∈ s.handlers, h.Succeeded → h.Finished

/-- The step drops no job: a panic finds the worker without jobs and the
queue empty, and the supervisor lets go of an empty queue. -/
def Process.Lossless (s : Process P) : ProcessStep → Prop
  | .panic => s.held = [] ∧ s.queue = []
  | .release => s.queue = []
  | _ => True

-- ========================= one handler

namespace Handler

/-- What a handler knows in each phase. -/
def PhaseOk (h : Handler P) : Prop :=
  match h.phase with
  | .arrived | .checked | .preparing => h.accepted = false
  | .collecting _ => h.accepted = true ∧ ∀ ev ∈ h.sent.take h.seen, ∀ e, ev ≠ .err e
  | .streaming st => h.accepted = true
      ∧ ((∃ e, Frame.error e ∈ st.frames)
        ∨ ∀ ev ∈ h.sent.take h.seen, ∀ e, ev ≠ .err e)
  | .refused _ => True
  | .completed _ => h.Finished
  | .streamed frames => (∃ e, Frame.error e ∈ frames) ∨ h.Finished

/-- A handler whose job is, or is not, held or queued. -/
structure Ok (live : Prop) (h : Handler P) : Prop where
  live_iff : live ↔ h.accepted = true ∧ h.closed = false
  accepted : h.closed = true → h.accepted = true
  seen_le : h.seen ≤ h.sent.length
  running : h.closed = false → ∀ ev ∈ h.sent, ev.terminal = false
  ended : h.closed = true → ∃ pre last, h.sent = pre ++ [last] ∧ last.terminal = true
    ∧ ∀ ev ∈ pre, ev.terminal = false
  phase : h.PhaseOk

variable {live : Prop} {h h' : Handler P}

theorem Ok.congr {live' : Prop} (hok : h.Ok live) (hiff : live' ↔ live) :
    h.Ok live' :=
  ⟨hiff.trans hok.live_iff, hok.accepted, hok.seen_le, hok.running, hok.ended,
    hok.phase⟩

/-- What a phase knows outlives a longer channel. -/
theorem PhaseOk.grow {sent : List StreamEvent} {closed : Bool} (hok : h.PhaseOk)
    (hseen : h.seen ≤ h.sent.length) (hsent : h.sent <+: sent) :
    PhaseOk { h with sent := sent, closed := closed } := by
  obtain ⟨more, rfl⟩ := hsent
  have htake : (h.sent ++ more).take h.seen = h.sent.take h.seen :=
    List.take_append_of_le_length hseen
  have hfinished : h.Finished →
      Finished { h with sent := h.sent ++ more, closed := closed } := by
    rintro ⟨reason, tokens, hmem⟩
    exact ⟨reason, tokens, List.mem_append_left _ hmem⟩
  unfold PhaseOk at hok ⊢
  simp only [htake]
  split at hok
  iterate 5 exact hok
  · trivial
  · exact hfinished hok
  · exact hok.imp_right hfinished

/-- Text for a live job. -/
theorem Ok.emit (hok : h.Ok live) (hlive : live) {ev : StreamEvent}
    (hev : ev.terminal = false) :
    (h.emit ev).Ok live := by
  have hopen := (hok.live_iff.1 hlive).2
  refine ⟨hok.live_iff, hok.accepted, ?_, fun _ ev' hmem => ?_,
    fun hclosed => ?_, hok.phase.grow hok.seen_le (List.prefix_append ..)⟩
  · have := hok.seen_le
    simp only [Handler.emit, List.length_append]
    omega
  · rcases List.mem_append.1 hmem with hmem | hmem
    · exact hok.running hopen ev' hmem
    · rw [List.mem_singleton.1 hmem]
      exact hev
  · exact absurd (hopen.symm.trans hclosed) nofun

/-- The last event of a live job. -/
theorem Ok.finish (hok : h.Ok live) (hlive : live) {ev : StreamEvent}
    (hev : ev.terminal = true) :
    ((h.emit ev).close).Ok False := by
  obtain ⟨haccepted, hopen⟩ := hok.live_iff.1 hlive
  refine ⟨⟨False.elim, fun hno => nomatch hno.2⟩, fun _ => haccepted, ?_,
    nofun, fun _ => ⟨h.sent, ev, rfl, hev, hok.running hopen⟩,
    hok.phase.grow hok.seen_le (List.prefix_append ..)⟩
  have := hok.seen_le
  simp only [Handler.emit, Handler.close, List.length_append]
  omega

/-- A job goes into the channel. -/
theorem Ok.accept (hok : h.Ok live) (hphase : h.phase = .preparing) :
    h.accept.Ok True := by
  have haccepted : h.accepted = false := by
    have := hok.phase
    unfold PhaseOk at this
    rw [hphase] at this
    exact this
  have hopen : h.closed = false := by
    by_contra hclosed
    rw [Bool.not_eq_false] at hclosed
    exact absurd (haccepted.symm.trans (hok.accepted hclosed)) nofun
  have hnone : ∀ ev ∈ h.sent.take h.seen, ∀ e, ev ≠ StreamEvent.err e := by
    rintro ev hmem e rfl
    exact absurd (hok.running hopen _ (List.mem_of_mem_take hmem)) nofun
  refine ⟨⟨fun _ => ⟨rfl, hopen⟩, fun _ => trivial⟩, fun _ => rfl, hok.seen_le,
    hok.running, hok.ended, ?_⟩
  unfold PhaseOk Handler.accept
  by_cases hstream : h.stream = true
  · simp only [hstream, if_true]
    exact ⟨trivial, .inr hnone⟩
  · simp only [hstream]
    exact ⟨trivial, hnone⟩

/-- A change of phase that says no more than is known. -/
theorem Ok.setPhase (hok : h.Ok live) {phase : HandlerPhase P}
    (hphase : PhaseOk { h with phase := phase }) : Ok live
    { h with phase := phase } :=
  ⟨hok.live_iff, hok.accepted, hok.seen_le, hok.running, hok.ended, hphase⟩

theorem Ok.refuse (hok : h.Ok live) (e : ApiError) : (h.refuse e).Ok live :=
  hok.setPhase trivial

/-- A channel read to its end without an error has been finished. -/
theorem Ok.finished (hok : h.Ok live) (hclosed : h.closed = true)
    (hall : h.sent[h.seen]? = none)
    (hnone : ∀ ev ∈ h.sent.take h.seen, ∀ e, ev ≠ .err e) :
    h.Finished := by
  obtain ⟨pre, last, hsent, hterminal, -⟩ := hok.ended hclosed
  rw [List.take_of_length_le (List.getElem?_eq_none_iff.1 hall)] at hnone
  have hlast : last ∈ h.sent := by
    rw [hsent]
    exact List.mem_append_right _ List.mem_cons_self
  cases last with
  | text chunk => cases hterminal
  | finish reason tokens => exact ⟨reason, tokens, hlast⟩
  | err e => exact absurd rfl (hnone _ hlast e)

/-- What has been received after one more event. -/
theorem mem_take_succ {ev ev' : StreamEvent} (hev : h.sent[h.seen]? = some ev)
    (hmem : ev' ∈ h.sent.take (h.seen + 1)) : ev' ∈ h.sent.take h.seen
    ∨ ev' = ev := by
  rw [List.take_add_one, hev] at hmem
  rcases List.mem_append.1 hmem with hmem | hmem
  · exact .inl hmem
  · exact .inr (by simpa using hmem)

/-- The frames written are kept, and an error event writes one. -/
theorem event_frames (st : StreamState P) (ev : StreamEvent) :
    st.frames <+: (st.event ev).frames
      ∧ ∀ e, ev = .err e → Frame.error e ∈ (st.event ev).frames := by
  cases ev with
  | text chunk =>
      refine ⟨?_, fun e h => nomatch h⟩
      rw [StreamState.event]
      split
      · exact List.prefix_rfl
      · exact List.prefix_append ..
  | finish reason tokens =>
      refine ⟨?_, fun e h => nomatch h⟩
      simp only [StreamState.event]
      split
      · exact List.prefix_append ..
      · split
        · rw [StreamState.push, List.append_assoc]
          exact List.prefix_append ..
        · exact List.prefix_append ..
  | err e =>
      refine ⟨List.prefix_append .., fun e' h => ?_⟩
      cases h
      exact List.mem_append_right _ List.mem_cons_self

/-- Receiving keeps what a handler knows. -/
theorem Ok.recv (hok : h.Ok live) (hrecv : h.recv = some h') : h'.Ok live := by
  have hphase := hok.phase
  unfold PhaseOk at hphase
  unfold Handler.recv at hrecv
  split at hrecv
  next c heq =>
    rw [heq] at hphase
    obtain ⟨haccepted, hnone⟩ := hphase
    split at hrecv
    next ev hev =>
      have hlt : h.seen + 1 ≤ h.sent.length := (List.getElem?_eq_some_iff.1 hev).1
      split at hrecv
      next c' hc' =>
        cases hrecv
        refine ⟨hok.live_iff, hok.accepted, hlt, hok.running, hok.ended,
          haccepted, ?_⟩
        intro ev' hmem e
        rcases mem_take_succ hev hmem with hmem | rfl
        · exact hnone ev' hmem e
        · rintro rfl
          cases hc'
      next e he =>
        cases hrecv
        exact ⟨hok.live_iff, hok.accepted, hlt, hok.running, hok.ended, trivial⟩
    next hall =>
      split at hrecv
      next hclosed =>
        cases hrecv
        exact hok.setPhase (hok.finished hclosed hall hnone)
      next => cases hrecv
  next st heq =>
    rw [heq] at hphase
    obtain ⟨haccepted, hframes⟩ := hphase
    split at hrecv
    next ev hev =>
      have hlt : h.seen + 1 ≤ h.sent.length := (List.getElem?_eq_some_iff.1 hev).1
      obtain ⟨hkept, herr⟩ := event_frames st ev
      cases hrecv
      refine ⟨hok.live_iff, hok.accepted, hlt, hok.running, hok.ended, haccepted, ?_⟩
      rcases hframes with ⟨e, he⟩ | hnone
      · exact .inl ⟨e, hkept.subset he⟩
      · cases ev with
        | err e => exact .inl ⟨e, herr e rfl⟩
        | text chunk =>
            refine .inr fun ev' hmem e => ?_
            rcases mem_take_succ hev hmem with hmem | rfl
            · exact hnone ev' hmem e
            · exact nofun
        | finish reason tokens =>
            refine .inr fun ev' hmem e => ?_
            rcases mem_take_succ hev hmem with hmem | rfl
            · exact hnone ev' hmem e
            · exact nofun
    next hall =>
      split at hrecv
      next hclosed =>
        cases hrecv
        refine hok.setPhase ?_
        rcases hframes with ⟨e, he⟩ | hnone
        · exact .inl ⟨e, List.mem_append_left _ he⟩
        · exact .inr (hok.finished hclosed hall hnone)
      next => cases hrecv
  next => cases hrecv

/-- Such a handler was answered as it should be. -/
theorem Ok.terminals (hok : h.Ok live) :
    h.terminals.length ≤ 1 ∧ (h.closed = true → h.terminals.length = 1) := by
  have hzero : ∀ {evs : List StreamEvent}, (∀ ev ∈ evs, ev.terminal = false) →
      evs.filter (·.terminal) = [] := by
    intro evs hevs
    exact List.filter_eq_nil_iff.2 fun ev hmem => by simp [hevs ev hmem]
  unfold Handler.terminals
  cases hclosed : h.closed with
  | false =>
      rw [hzero (hok.running hclosed)]
      exact ⟨Nat.zero_le 1, nofun⟩
  | true =>
      obtain ⟨pre, last, hsent, hterminal, hpre⟩ := hok.ended hclosed
      have hone : (h.sent.filter (·.terminal)).length = 1 := by
        rw [hsent, List.filter_append, hzero hpre, List.filter_cons, if_pos hterminal]
        rfl
      exact ⟨Nat.le_of_eq hone, fun _ => hone⟩

theorem Ok.honest (hok : h.Ok live) (hsucceeded : h.Succeeded) : h.Finished := by
  have hphase := hok.phase
  unfold PhaseOk at hphase
  unfold Succeeded at hsucceeded
  split at hsucceeded
  next heq =>
    rw [heq] at hphase
    exact hphase
  next heq =>
    rw [heq] at hphase
    rcases hphase with ⟨e, he⟩ | hfinished
    · exact absurd he (hsucceeded e)
    · exact hfinished
  next => exact hsucceeded.elim

end Handler

-- ========================= the process

namespace Process

variable {s s' : Process P}

/-- The jobs the process has: what the worker holds, then what is queued. -/
def jobs (s : Process P) : List Nat := s.held ++ s.queue

/-- Every job the process has is one handler's, and open; every other
accepted job was given up with its terminal event. -/
structure Inv (s : Process P) : Prop where
  nodup : s.jobs.Nodup
  valid : ∀ i ∈ s.jobs, ∃ h, s.handlers[i]? = some h
  ok : ∀ (i : Nat) (h : Handler P), s.handlers[i]? = some h → h.Ok (i ∈ s.jobs)

theorem Inv.answered (hs : s.Inv) : s.Answered := by
  have hok : ∀ h ∈ s.handlers, ∃ live, h.Ok live := by
    intro h hmem
    obtain ⟨i, hi⟩ := List.mem_iff_getElem?.1 hmem
    exact ⟨_, hs.ok i h hi⟩
  refine ⟨fun h hmem _ => ?_, fun h hmem _ => ?_, fun h hmem => ?_⟩
  · obtain ⟨live, h⟩ := hok h hmem
    exact h.terminals.1
  · obtain ⟨live, h⟩ := hok h hmem
    exact h.terminals.2
  · obtain ⟨live, h⟩ := hok h hmem
    exact h.honest

/-- A step that leaves the handlers alone and keeps the jobs. -/
theorem Inv.same (hs : s.Inv) (hhandlers : s'.handlers = s.handlers)
    (hjobs : s'.jobs.Perm s.jobs) : s'.Inv := by
  refine ⟨hjobs.nodup_iff.2 hs.nodup, fun i hi => ?_, fun i h hi => ?_⟩
  · rw [hhandlers]
    exact hs.valid i (hjobs.mem_iff.1 hi)
  · rw [hhandlers] at hi
    exact (hs.ok i h hi).congr hjobs.mem_iff

variable {i maxRestarts : Nat}

/-- A step that changes one handler, and no job but its own. -/
theorem Inv.modify (hs : s.Inv) {f : Handler P → Handler P}
    (hhandlers : s'.handlers = s.handlers.modify i f) (hnodup : s'.jobs.Nodup)
    (hjobs : ∀ j, j ≠ i → (j ∈ s'.jobs ↔ j ∈ s.jobs))
    (hvalid : i ∈ s'.jobs → ∃ h, s.handlers[i]? = some h)
    (hok : ∀ h, s.handlers[i]? = some h → h.Ok (i ∈ s.jobs) →
      (f h).Ok (i ∈ s'.jobs)) : s'.Inv := by
  refine ⟨hnodup, fun j hj => ?_, fun j h hj => ?_⟩
  · rw [hhandlers, List.getElem?_modify]
    have hold : ∃ h, s.handlers[j]? = some h := by
      by_cases hji : j = i
      · subst hji
        exact hvalid hj
      · exact hs.valid j ((hjobs j hji).1 hj)
    obtain ⟨h, hh⟩ := hold
    exact ⟨_, by rw [hh]; rfl⟩
  · rw [hhandlers, List.getElem?_modify] at hj
    obtain ⟨h₀, hh₀, rfl⟩ := Option.map_eq_some_iff.1 hj
    by_cases hij : i = j
    · subst hij
      simp only [if_true]
      exact hok h₀ hh₀ (hs.ok i h₀ hh₀)
    · simp only [if_neg hij]
      exact (hs.ok j h₀ hh₀).congr (hjobs j (Ne.symm hij))

/-- A handler moves on, with its job where it is. -/
theorem Inv.setHandler (hs : s.Inv) {f : Handler P → Handler P}
    (hok : ∀ h, s.handlers[i]? = some h → h.Ok (i ∈ s.jobs) → (f h).Ok (i ∈ s.jobs)) :
    (s.modify i f).Inv :=
  Inv.modify hs rfl hs.nodup (fun _ _ => Iff.rfl) (hs.valid i) hok

/-- An event for a job the worker holds. -/
theorem Inv.workerSends (hs : s.Inv) {ev : StreamEvent}
    (hev : ev.terminal = false)
    (h : s.workerSends i ev = some s') : s'.Inv := by
  unfold Process.workerSends at h
  split at h
  · cases h
  · split at h
    next hcan =>
      cases h
      refine hs.setHandler fun h _ hok => hok.emit ?_ hev
      exact List.mem_append_left _ hcan.2.1
    next => cases h

/-- The last event of a job the worker holds. -/
theorem Inv.workerEnds (hs : s.Inv) {ev : StreamEvent}
    (hev : ev.terminal = true) (h : s.workerEnds i ev = some s') : s'.Inv := by
  obtain ⟨s₁, h₁, rfl⟩ := Option.map_eq_some_iff.1 h
  unfold Process.workerSends at h₁
  split at h₁
  · cases h₁
  · split at h₁
    next hcan =>
      cases h₁
      have hheld : i ∈ s.held := hcan.2.1
      obtain ⟨hnd, hndq, hdisj⟩ := List.nodup_append.1 hs.nodup
      have hnot : i ∉ s.held.erase i ++ s.queue := by
        intro hmem
        rcases List.mem_append.1 hmem with hmem | hmem
        · exact (hnd.mem_erase_iff.1 hmem).1 rfl
        · exact hdisj i hheld i hmem rfl
      refine Inv.modify hs (f := fun h => (h.emit ev).close) ?_ ?_ (fun j hj => ?_)
        (fun hmem => absurd hmem hnot) fun h _ hok => ?_
      · simp only [Process.modify, List.modify_modify_eq]
        rfl
      · exact hs.nodup.sublist (List.erase_sublist.append_right _)
      · simp only [jobs, List.mem_append]
        rw [List.mem_erase_of_ne hj]
        rfl
      · refine (hok.finish (List.mem_append_left _ hheld) hev).congr
          ⟨fun hmem => hnot hmem, False.elim⟩
    next => cases h₁

/-- A queued job answered with an error. -/
theorem Inv.answerQueued (hs : s.Inv) {e : ApiError}
    (h : s.answerQueued e = some s') : s'.Inv := by
  unfold Process.answerQueued at h
  split at h
  · cases h
  next i rest hqueue =>
    cases h
    have hjobs : s.jobs = s.held ++ i :: rest := by rw [jobs, hqueue]
    have hnd := hs.nodup
    rw [hjobs] at hnd
    have hnot : i ∉ s.held ++ rest := (List.nodup_middle.1 hnd).notMem
    refine Inv.modify hs (f := fun h => (h.emit (.err e)).close) rfl
      (List.nodup_middle.1 hnd).of_cons (fun j hj => ?_)
        (fun hmem => absurd hmem hnot) fun h _ hok => ?_
    · rw [hjobs]
      simp [jobs, Process.modify, hj]
    · refine (hok.finish ?_ rfl).congr ⟨fun hmem => hnot hmem, False.elim⟩
      rw [hjobs]
      exact List.mem_append_right _ List.mem_cons_self

/-- A job goes into the channel. -/
theorem Inv.accept (hs : s.Inv) {h : Handler P}
    (hi : s.handlers[i]? = some h) (hphase : h.phase = .preparing) :
    Inv { s.modify i Handler.accept with queue := s.queue ++ [i] } := by
  have hok := hs.ok i h hi
  have hfresh : i ∉ s.jobs := by
    intro hmem
    have haccepted := (hok.live_iff.1 hmem).1
    have hphaseOk := hok.phase
    unfold Handler.PhaseOk at hphaseOk
    rw [hphase] at hphaseOk
    exact absurd (haccepted.symm.trans hphaseOk) nofun
  have hjobs : jobs { s.modify i Handler.accept with queue := s.queue ++ [i] }
      = s.jobs ++ [i] := by
    simp [jobs, Process.modify]
  refine Inv.modify hs rfl ?_ (fun j hj => ?_)
    (fun _ => ⟨h, hi⟩) fun h' hh' hok' => ?_
  · rw [hjobs, List.nodup_append]
    refine ⟨hs.nodup, List.nodup_singleton i, fun a ha b hb => ?_⟩
    rw [List.mem_singleton.1 hb]
    rintro rfl
    exact hfresh ha
  · rw [hjobs]
    simp [hj]
  · rw [hi] at hh'
    cases hh'
    refine (hok'.accept hphase).congr ⟨fun _ => trivial, fun _ => ?_⟩
    rw [hjobs]
    exact List.mem_append_right _ List.mem_cons_self

/-- A new connection has no job. -/
theorem Inv.arrive (hs : s.Inv) (stream : Bool) :
    Inv { s with handlers :=
      s.handlers ++ [⟨stream, .arrived, false, [], 0, false⟩] } := by
  refine ⟨hs.nodup, fun i hi => ?_, fun i h hi => ?_⟩
  · obtain ⟨h, hh⟩ := hs.valid i hi
    exact ⟨h, by rw [List.getElem?_append_left
      (List.getElem?_eq_some_iff.1 hh).1]; exact hh⟩
  · by_cases hlt : i < s.handlers.length
    · rw [List.getElem?_append_left hlt] at hi
      exact hs.ok i h hi
    · rw [List.getElem?_append_right (Nat.le_of_not_lt hlt)] at hi
      rw [List.getElem?_singleton] at hi
      split at hi
      · cases hi
        refine ⟨⟨fun hmem => ?_, fun hno => nomatch hno.1⟩, nofun,
          Nat.le_refl 0, fun _ _ hmem => (nomatch hmem), nofun, rfl⟩
        obtain ⟨h, hh⟩ := hs.valid i hmem
        exact absurd (List.getElem?_eq_some_iff.1 hh).1 hlt
      · cases hi

/-- A handler puts its job into the channel, or finds it gone. -/
theorem Inv.send (hs : s.Inv)
    (h : s.step maxRestarts (.send i) = some s') : s'.Inv := by
  simp only [Process.step] at h
  split at h
  next hi =>
    split at h
    · cases h
      exact hs.setHandler fun h _ hok => hok.refuse _
    · split at h
      · cases h
        exact hs.accept hi rfl
      · cases h
  next => cases h

/-- A handler reads an event. -/
theorem Inv.recv (hs : s.Inv)
    (h : s.step maxRestarts (.recv i) = some s') : s'.Inv := by
  simp only [Process.step] at h
  split at h
  next h₀ hi =>
    obtain ⟨h₁, hrecv, rfl⟩ := Option.map_eq_some_iff.1 h
    refine hs.setHandler fun h hh hok => ?_
    rw [hi] at hh
    cases hh
    exact hok.recv hrecv
  next => cases h

/-- A worker that dies with no job loses none. -/
theorem Inv.panic (hs : s.Inv) (hx : s.Lossless .panic)
    (h : s.step maxRestarts .panic = some s') : s'.Inv := by
  simp only [Process.step] at h
  split at h
  · cases h
    obtain ⟨hheld, hqueue⟩ := hx
    refine hs.same ?_ ?_
    · simp only [hheld, hqueue]
      rfl
    · simp [jobs, hheld, hqueue]
  · cases h

/-- A channel that is dropped empty loses no job. -/
theorem Inv.release (hs : s.Inv) (hx : s.Lossless .release)
    (h : s.step maxRestarts .release = some s') : s'.Inv := by
  simp only [Process.step] at h
  split at h
  · cases h
    have hqueue : s.queue = [] := hx
    refine hs.same ?_ ?_
    · simp only [hqueue]
      rfl
    · simp only [jobs, hqueue]
      exact .refl _
  · cases h

/-- A step that drops no job keeps the invariant. -/
theorem Inv.step (hs : s.Inv) {x : ProcessStep}
    (hx : s.Lossless x) (h : s.step maxRestarts x = some s') : s'.Inv := by
  cases x with
  | arrive stream =>
      simp only [Process.step] at h
      split at h
      · cases h
        exact hs.arrive stream
      · cases h
  | drain | stopServing =>
      cases h
      exact hs.same rfl (.refl _)
  | checkDraining i | checkStopped i =>
      simp only [Process.step] at h
      split at h
      next hi =>
        split at h
        · cases h
          exact hs.setHandler fun h _ hok => hok.refuse _
        · cases h
          refine hs.setHandler fun h hh hok => hok.setPhase ?_
          rw [hi] at hh
          cases hh
          exact hok.phase
      next => cases h
  | refuseRequest i e =>
      simp only [Process.step] at h
      split at h
      · cases h
        exact hs.setHandler fun h _ hok => hok.refuse _
      · cases h
  | send i => exact hs.send h
  | recv i => exact hs.recv h
  | take =>
      simp only [Process.step] at h
      split at h
      next i rest _ hqueue =>
        cases h
        refine hs.same rfl ?_
        simp [jobs, hqueue]
      next => cases h
  | text i chunk => exact hs.workerSends rfl h
  | finish i reason tokens =>
      simp only [Process.step] at h
      split at h
      · exact hs.workerEnds rfl h
      · cases h
  | fail i e => exact hs.workerEnds rfl h
  | rejectQueued =>
      simp only [Process.step] at h
      split at h
      · exact hs.answerQueued h
      · cases h
  | stall | returnStalled | returnShutdown =>
      simp only [Process.step] at h
      split at h
      · cases h
        exact hs.same rfl (.refl _)
      · cases h
  | panic => exact hs.panic hx h
  | join =>
      simp only [Process.step] at h
      split at h
      · cases h
        exact hs.same rfl (.refl _)
      · cases h
        exact hs.same rfl (.refl _)
      · cases h
  | refuseQueued =>
      simp only [Process.step] at h
      split at h
      · exact hs.answerQueued h
      · cases h
  | drained =>
      simp only [Process.step] at h
      split at h
      · split at h
        · cases h
          exact hs.same rfl (.refl _)
        · cases h
          exact hs.same rfl (.refl _)
      · cases h
  | respawn =>
      simp only [Process.step] at h
      split at h
      · cases h
        exact hs.same rfl (.refl _)
      · cases h
  | release => exact hs.release hx h

-- ========================== whole runs

theorem dropJobs_handler (jobs : List Nat) (s : Process P) (i : Nat) :
    (s.dropJobs jobs).handlers[i]?
      = (s.handlers[i]?).map fun h => if i ∈ jobs then h.close else h := by
  induction jobs generalizing s with
  | nil =>
      rw [dropJobs, List.foldl_nil]
      cases s.handlers[i]? <;> rfl
  | cons j rest ih =>
      rw [dropJobs, List.foldl_cons]
      refine (ih (s.modify j Handler.close)).trans ?_
      rw [Process.modify, List.getElem?_modify, Option.map_eq_map, Option.map_map]
      refine congrArg (Option.map · _) (funext fun h => ?_)
      by_cases hij : j = i
      · subst hij
        simp [Handler.close]
      · simp [hij, Ne.symm hij]

/-- Dropping a job the process has leaves it without an answer. -/
theorem Inv.not_answered (hs : s.Inv) {drop : List Nat} (hdrop : i ∈ drop)
    (hi : i ∈ s.jobs) (hhandlers : s'.handlers = (s.dropJobs drop).handlers) :
    ¬ s'.Answered := by
  intro hanswered
  obtain ⟨h, hh⟩ := hs.valid i hi
  have hok := hs.ok i h hh
  obtain ⟨haccepted, hopen⟩ := hok.live_iff.1 hi
  have hmem : h.close ∈ s'.handlers := by
    refine List.mem_iff_getElem?.2 ⟨i, ?_⟩
    rw [hhandlers, dropJobs_handler, hh, Option.map_some, if_pos hdrop]
  have hone := hanswered.once _ hmem haccepted rfl
  have hnone : h.close.terminals = [] :=
    List.filter_eq_nil_iff.2 fun ev hev => by simp [hok.running hopen ev hev]
  rw [hnone] at hone
  cases hone

/-- A step that drops a job leaves a state in which one was not answered. -/
theorem Inv.lossless_of_answered (hs : s.Inv) {x : ProcessStep}
    (h : s.step maxRestarts x = some s') (hanswered : s'.Answered) :
    s.Lossless x := by
  cases x with
  | panic =>
      simp only [Process.step] at h
      split at h
      · cases h
        have hnil : s.jobs = [] := by
          by_contra hne
          obtain ⟨i, hi⟩ := List.exists_mem_of_ne_nil _ hne
          exact absurd hanswered (hs.not_answered hi hi rfl)
        exact List.append_eq_nil_iff.1 hnil
      · cases h
  | release =>
      simp only [Process.step] at h
      split at h
      · cases h
        by_contra hne
        obtain ⟨i, hi⟩ := List.exists_mem_of_ne_nil _ hne
        exact absurd hanswered (hs.not_answered hi (List.mem_append_right _ hi) rfl)
      · cases h
  | _ => trivial

theorem inv_start : (start : Process P).Inv :=
  ⟨List.nodup_nil, fun _ hi => (nomatch hi), fun _ _ hi => (nomatch hi)⟩

theorem run_append {xs ys : List ProcessStep} :
    ∀ {s : Process P}, s.run maxRestarts (xs ++ ys)
      = (s.run maxRestarts xs).bind (·.run maxRestarts ys) := by
  induction xs with
  | nil => exact rfl
  | cons x rest ih =>
      intro s
      simp only [List.cons_append, Process.run]
      split
      · exact ih
      · rfl

/-- A run of lossless steps ends in a good state. -/
theorem Inv.run (hs : s.Inv) {steps : List ProcessStep}
    (hsteps : ∀ part x t, part ++ [x] <+: steps →
      s.run maxRestarts part = some t → t.Lossless x)
    (h : s.run maxRestarts steps = some s') : s'.Inv := by
  induction steps generalizing s with
  | nil =>
      cases h
      exact hs
  | cons x rest ih =>
      rw [Process.run] at h
      split at h
      next s₁ h₁ =>
        refine ih (hs.step (hsteps [] x s (by simp) rfl) h₁)
          (fun part y t hpart ht => ?_) h
        refine hsteps (x :: part) y t ?_ ?_
        · rw [List.cons_append]
          exact (List.prefix_cons_inj x).2 hpart
        · rw [Process.run, h₁]
          exact ht
      next => cases h

/-- Along every run of the process, in whatever order its threads take
their steps: every job is answered, once and truly, in every state of the
run exactly when no step drops a job. -/
theorem answered_iff_lossless {steps : List ProcessStep}
    {s : Process P} (hrun : start.run maxRestarts steps = some s) :
    (∀ part (t : Process P), part <+: steps →
      start.run maxRestarts part = some t → t.Answered)
      ↔ ∀ part x (t : Process P), part ++ [x] <+: steps →
        start.run maxRestarts part = some t →
        t.Lossless x := by
  constructor
  · intro hanswered
    -- the first step that drops a job would show in the state it leaves
    have hall : ∀ n, n ≤ steps.length → ∀ t : Process P,
        start.run maxRestarts (steps.take n) = some t → t.Inv := by
      intro n
      induction n with
      | zero =>
          intro _ t ht
          cases ht
          exact inv_start
      | succ n ih =>
          intro hn t ht
          rw [List.take_add_one, List.getElem?_eq_getElem (by omega),
            Option.toList_some,
            run_append] at ht
          obtain ⟨u, hu, hstep⟩ := Option.bind_eq_some_iff.1 ht
          have hinv := ih (by omega) u hu
          rw [Process.run] at hstep
          split at hstep
          next v hv =>
            cases hstep
            refine hinv.step (hinv.lossless_of_answered hv ?_) hv
            refine hanswered (steps.take (n + 1)) t (List.take_prefix ..) ?_
            rw [List.take_add_one, List.getElem?_eq_getElem (by omega),
              Option.toList_some,
              run_append]
            exact ht
          next => cases hstep
    intro part x t hpart ht
    obtain ⟨more, hmore⟩ := hpart
    have hrest : ∃ v, t.step maxRestarts x = some v := by
      rw [← hmore, run_append, run_append, ht, Option.bind_some] at hrun
      obtain ⟨v, hv, -⟩ := Option.bind_eq_some_iff.1 hrun
      rw [Process.run] at hv
      split at hv
      next w hw => exact ⟨w, hw⟩
      next => cases hv
    obtain ⟨v, hv⟩ := hrest
    have htake : part = steps.take part.length := by
      rw [← hmore, List.append_assoc, List.take_left']
      rfl
    have hinv : t.Inv := by
      refine hall part.length ?_ t ?_
      · rw [← hmore]
        simp
      · rw [← htake]
        exact ht
    refine hinv.lossless_of_answered hv (hanswered (part ++ [x]) v ⟨more, hmore⟩ ?_)
    rw [run_append, ht, Option.bind_some, Process.run, hv]
    rfl
  · intro hsteps part t hpart ht
    refine (inv_start.run (fun part' x u hpart' hu => ?_) ht).answered
    exact hsteps part' x u (hpart'.trans hpart) hu

/-- A parser that takes every text as content. -/
def plainParser : CallParser where
  State := Unit
  Item := List Char
  new := ()
  feed _ chunk := ((), [chunk])
  finish _ := .ok []
  isCall _ := false

/-- One request up to its send. -/
def upToSend (stream : Bool) : List ProcessStep :=
  [.arrive stream, .checkDraining 0, .checkStopped 0, .send 0]

/-- One worker that stalls with nothing to answer, and its restart. -/
def stallAndRestart : List ProcessStep :=
  [.stall, .returnStalled, .join, .drained, .respawn]

/-- A queued job whose worker panics reads as an empty completion. So does
one sent between the supervisor's last look at the queue and its exit, and
one that streams ends in `[DONE]` without an error frame. -/
theorem dropped_jobs_read_as_success :
    (∃ s : Process plainParser,
      start.run maxWorkerRestarts
        (upToSend false ++ [.panic, .recv 0]) = some s
      ∧ s.handlers.map (·.sent) = [[]] ∧ (∃ h ∈ s.handlers, h.Succeeded)
      ∧ ¬ s.Answered)
    ∧ ∃ s : Process plainParser, start.run maxWorkerRestarts
        ((List.replicate maxWorkerRestarts stallAndRestart).flatten
          ++ [.arrive true, .checkDraining 0, .checkStopped 0, .stall,
            .returnStalled, .join, .drained, .send 0, .release,
            .recv 0]) = some s
      ∧ s.handlers.map (·.sent) = [[]] ∧ (∃ h ∈ s.handlers, h.Succeeded)
      ∧ ¬ s.Answered := by
  have hnot : ∀ {s : Process plainParser} {h : Handler plainParser},
      h ∈ s.handlers → h.accepted = true →
      h.closed = true → h.sent = [] → ¬ s.Answered := by
    intro s h hmem haccepted hclosed hsent hanswered
    have hone := hanswered.once h hmem haccepted hclosed
    rw [Handler.terminals, hsent] at hone
    cases hone
  refine ⟨⟨_, rfl, rfl, ⟨_, List.mem_cons_self, trivial⟩,
    hnot List.mem_cons_self rfl rfl rfl⟩,
    ⟨_, rfl, rfl, ⟨_, List.mem_cons_self, ?_⟩, hnot List.mem_cons_self rfl rfl rfl⟩⟩
  intro e he
  rcases List.mem_cons.1 he with he | he
  · cases he
  · rcases List.mem_cons.1 he with he | he
    · cases he
    · cases he

/-- A job that is served: its text, and a completion that says so. -/
theorem served_job_answered : ∃ s : Process plainParser,
    start.run maxWorkerRestarts (upToSend false
        ++ [.take, .text 0 ['h', 'i'], .recv 0, .finish 0 .stop 1, .recv 0,
          .recv 0]) = some s
      ∧ s.Answered := by
  refine ⟨_, rfl, ?_⟩
  refine (@answered_iff_lossless plainParser maxWorkerRestarts (upToSend false
    ++ [.take, .text 0 ['h', 'i'], .recv 0, .finish 0 .stop 1, .recv 0,
      .recv 0]) _ rfl).2 ?_
    _ _ List.prefix_rfl rfl
  intro part x t hpart _
  have hx : x ∈ upToSend false
      ++ [.take, .text 0 ['h', 'i'], .recv 0, .finish 0 .stop 1, .recv 0, .recv 0] :=
    hpart.subset (by simp)
  cases x with
  | panic => simp [upToSend] at hx
  | release => simp [upToSend] at hx
  | _ => trivial

end Process
end Minfer.Server
