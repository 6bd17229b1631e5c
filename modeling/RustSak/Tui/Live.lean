import RustSak.Library.Machine
import RustSak.Tui.Screen

/-!
# A line drawn live

A session draws a line on a terminal in raw mode, frame after frame, from a thread of its own.
Handles change the line at any time, and the owner ends the session: it lets the line settle for
a time, or abandons it. The thread may fail or panic at any step. However it ends, the session is
dropped on the way, which puts the terminal back as far as the terminal lets it: what fails there
is passed over.
-/

namespace RustSak

namespace Tui

open Library

/-! ## Rows -/

/-- The inline viewport's height. -/
def viewport (height rows : UInt16) : UInt16 := max (min height rows) 1

/-- The row the cursor goes to before the restoring newline. -/
def restoreRow (viewport : Rect) (cursor : Option UInt16) : UInt16 :=
  let bottom := max (saturatingSub (UInt16.ofNat viewport.bottom) 1) viewport.y
  cursor.elim bottom fun row => max row bottom

namespace Live

structure KeyEvent where
  code : Char
  control : Bool
  press : Bool
  deriving DecidableEq

def isCtrlC (event : KeyEvent) : Bool := event.code == 'c' && event.press && event.control

/-- What a session draws. -/
structure LiveLine (L : Type) where
  render : L → L
  settled : L → Bool
  snap : L → L

/-- How the frame thread is told to end. -/
inductive Stop where
  | settle (cap : ℕ)
  | abandon
  deriving DecidableEq

/-- What the thread ended of. -/
inductive Ended where
  | drawn
  | abandoned
  | failed
  | panicked
  deriving DecidableEq

/-- Where the frame thread is, and since when it has been finishing, and with what cap. -/
inductive Thread where
  | top (finishing : Option (ℕ × ℕ))
  | drawing (finishing : Option (ℕ × ℕ))
  | polling (finishing : Option (ℕ × ℕ))
  | interrupting (finishing : Option (ℕ × ℕ))
  | dropping (ended : Ended)
  | closed (ended : Ended)
  deriving DecidableEq

/-- Where the owner is. What it returns is what the thread ended of. -/
inductive Owner where
  | up
  | joining (dropped : Bool)
  | finished (ended : Ended)
  | dropped
  deriving DecidableEq

/-- A frame that was drawn: the line before it and as it was rendered, when, under what finishing,
and whether it was drawn as the last. -/
structure Frame (L : Type) where
  before : L
  line : L
  time : ℕ
  finishing : Option (ℕ × ℕ)
  done : Bool

/-- What comes of putting the terminal back: where it says the cursor is, whether the cursor could
be moved and shown, and whether raw mode could be turned off, and again when its guard is dropped.
The cursor may also be shown as the terminal itself is dropped. -/
structure Restore where
  cursor : Option UInt16
  disabled : Bool
  moved : Bool
  shown : Bool
  disabledAgain : Bool

/-- The session and its terminal. `presses` counts the Ctrl-C that were read, `interrupts` the calls
of `on_interrupt`. -/
structure Session (L : Type) where
  now : ℕ
  line : L
  pending : Option Stop
  owner : Owner
  thread : Thread
  raw : Bool
  hidden : Bool
  row : UInt16
  area : Rect
  restored : Option Restore
  frames : List (Frame L)
  presses : ℕ
  interrupts : ℕ

/-- What can go wrong while a frame is drawn. The line may be left changed. -/
inductive Failure where
  | before
  | after (hidden : Bool)
  | panics

inductive Event (L : Type) where
  | tick
  | update (change : L → L)
  | finish (cap : ℕ)
  | drop (panicking : Bool)
  | frame
  /-- The viewport follows the terminal's size. -/
  | autoresize (area : Rect)
  | draw
  | drawFails (failure : Failure) (left : L)
  | poll (key : Option KeyEvent)
  | pollFails
  | interrupt (panics : Bool)
  /-- The session is dropped. -/
  | restore (restored : Restore)
  | join

namespace Session

variable {L : Type}

/-- Once `start` has turned raw mode on, made room and started the thread. -/
def new (line : L) (area : Rect) : Session L where
  now := 0
  line := line
  pending := none
  owner := .up
  thread := .top none
  raw := true
  hidden := false
  row := area.y
  area := area
  restored := none
  frames := []
  presses := 0
  interrupts := 0

def Enabled (s : Session L) : Event L → Prop
  | .tick => True
  | .update _ => True
  | .finish _ => s.owner = .up
  | .drop _ => s.owner = .up
  | .frame => ∃ finishing, s.thread = .top finishing
  | .autoresize _ => ∃ finishing, s.thread = .drawing finishing
  | .draw => ∃ finishing, s.thread = .drawing finishing
  | .drawFails _ _ => ∃ finishing, s.thread = .drawing finishing
  | .poll _ => ∃ finishing, s.thread = .polling finishing
  | .pollFails => ∃ finishing, s.thread = .polling finishing
  | .interrupt _ => ∃ finishing, s.thread = .interrupting finishing
  | .restore _ => ∃ ended, s.thread = .dropping ended
  | .join => (∃ dropped, s.owner = .joining dropped) ∧ ∃ ended, s.thread = .closed ended

/-- What has been sent is taken once, by a thread that is not finishing yet. -/
def receive (s : Session L) : Session L :=
  match s.thread with
  | .top none =>
      match s.pending with
      | some (.settle cap) => { s with pending := none, thread := .drawing (some (s.now, cap)) }
      | some .abandon => { s with pending := none, thread := .dropping .abandoned }
      | none => { s with thread := .drawing none }
  | .top (some finishing) => { s with thread := .drawing (some finishing) }
  | _ => s

def draw (lines : LiveLine L) (s : Session L) : Session L :=
  match s.thread with
  | .drawing finishing =>
      let done := finishing.any fun since =>
        lines.settled s.line || decide (since.1 + since.2 ≤ s.now)
      let line := lines.render (if done then lines.snap s.line else s.line)
      { s with
        line := line
        hidden := true
        frames := s.frames ++ [⟨s.line, line, s.now, finishing, done⟩]
        thread := if done then .dropping .drawn else .polling finishing }
  | _ => s

def next (lines : LiveLine L) (s : Session L) : Event L → Session L
  | .tick => { s with now := s.now + 1 }
  | .update change => { s with line := change s.line }
  | .finish cap => { s with pending := some (.settle cap), owner := .joining false }
  | .drop panicking =>
      { s with
        pending := some (if panicking then .abandon else .settle 0)
        owner := .joining true }
  | .frame => s.receive
  | .autoresize area => { s with area := area }
  | .draw => s.draw lines
  | .drawFails failure left =>
      match failure with
      | .before => { s with thread := .dropping .failed }
      | .after hidden =>
          { s with line := left, hidden := s.hidden || hidden, thread := .dropping .failed }
      | .panics => { s with line := left, thread := .dropping .panicked }
  | .poll key =>
      match s.thread with
      | .polling finishing =>
          if key.any isCtrlC then
            { s with presses := s.presses + 1, thread := .interrupting finishing }
          else { s with thread := .top finishing }
      | _ => s
  | .pollFails => { s with thread := .dropping .failed }
  | .interrupt panics =>
      match s.thread with
      | .interrupting finishing =>
          { s with
            interrupts := s.interrupts + 1
            thread := if panics then .dropping .panicked else .top finishing }
      | _ => s
  | .restore restored =>
      match s.thread with
      | .dropping ended =>
          { s with
            raw := s.raw && !(restored.disabled || restored.disabledAgain)
            hidden := s.hidden && !restored.shown
            row := if restored.moved then restoreRow s.area restored.cursor else s.row
            restored := some restored
            thread := .closed ended }
      | _ => s
  | .join =>
      match s.owner, s.thread with
      | .joining false, .closed ended => { s with owner := .finished ended }
      | .joining true, .closed _ => { s with owner := .dropped }
      | _, _ => s

def machine (lines : LiveLine L) : Machine (Session L) (Event L) :=
  .guarded (fun s => ∃ line y width height rows,
    s = new line ⟨0, y, width, viewport height rows⟩) Enabled (next lines)

end Session

/-! ## The invariant -/

section Invariant

variable {L : Type} {lines : LiveLine L}

/-- The frame is of the line as it was, which is snapped to its end for the last one only; and the
last one is drawn as soon as the line has settled or the time has run out. -/
structure Frame.Drawn (lines : LiveLine L) (frame : Frame L) : Prop where
  done : frame.done = frame.finishing.any fun since =>
    lines.settled frame.before || decide (since.1 + since.2 ≤ frame.time)
  line : frame.line = lines.render (if frame.done then lines.snap frame.before else frame.before)

def Thread.ended : Thread → Option Ended
  | .dropping ended => some ended
  | .closed ended => some ended
  | _ => none

def Thread.isOver : Thread → Bool
  | .closed _ => true
  | _ => false

def Thread.interrupting? : Thread → ℕ
  | .interrupting _ => 1
  | _ => 0

/-- Whether the frames end with a last one. -/
def Last (drawn : Bool) (frames : List (Frame L)) : Prop :=
  if drawn then ∃ before frame, frames = before ++ [frame] ∧ frame.done = true ∧
    ∀ other ∈ before, other.done = false
  else ∀ frame ∈ frames, frame.done = false

/-- The terminal is as it was before the session, as far as it could be put back. -/
structure Back (restored : Restore) (s : Session L) : Prop where
  raw : restored.disabled = true ∨ restored.disabledAgain = true → s.raw = false
  hidden : restored.shown = true → s.hidden = false
  row : restored.moved = true → ∀ x y, s.area.Covers x y → y ≤ s.row.toNat

structure Inv (lines : LiveLine L) (s : Session L) : Prop where
  raw : s.thread.isOver = false → s.raw = true
  back : s.thread.isOver = true → ∃ restored, s.restored = some restored ∧ Back restored s
  finished : ∀ ended, s.owner = .finished ended → s.thread = .closed ended
  dropped : s.owner = .dropped → s.thread.isOver = true
  drawn : ∀ frame ∈ s.frames, frame.Drawn lines
  last : Last (s.thread.ended == some .drawn) s.frames
  presses : s.interrupts + s.thread.interrupting? = s.presses

variable {s : Session L}

theorem toNat_max (a b : UInt16) : (max a b).toNat = max a.toNat b.toNat := by
  change (if a ≤ b then b else a).toNat = _
  split
  · rename_i hle
    exact (Nat.max_eq_right (UInt16.le_iff_toNat_le.mp hle)).symm
  · rename_i hle
    exact (Nat.max_eq_left (Nat.le_of_not_le fun h => hle (UInt16.le_iff_toNat_le.mpr h))).symm

/-- The row is no higher than any of the viewport, nor than the cursor. -/
theorem le_restoreRow (area : Rect) (cursor : Option UInt16) :
    (∀ x y, area.Covers x y → y ≤ (restoreRow area cursor).toNat) ∧
      ∀ row, cursor = some row → row.toNat ≤ (restoreRow area cursor).toNat := by
  have hone : (1 : UInt16).toNat = 1 := rfl
  have hle : area.bottom ≤ 2 ^ 16 - 1 := Nat.min_le_right _ _
  have hbottom : area.bottom - 1 ≤ (restoreRow area cursor).toNat := by
    have hsaturated : (saturatingSub (UInt16.ofNat area.bottom) 1).toNat = area.bottom - 1 := by
      rw [saturatingSub, toNat_saturate, UInt16.toNat_ofNat_of_lt' (Nat.lt_succ_of_le hle)]
      omega
    cases cursor with
    | none =>
        rw [restoreRow, Option.elim_none, toNat_max, hsaturated]
        exact Nat.le_max_left _ _
    | some row =>
        rw [restoreRow, Option.elim_some, toNat_max, toNat_max, hsaturated]
        exact (Nat.le_max_left _ _).trans (Nat.le_max_right _ _)
  refine ⟨fun x y h => ?_, fun row hrow => ?_⟩
  · have hlt := h.bottom
    omega
  · rw [hrow, restoreRow, Option.elim_some, toNat_max]
    exact Nat.le_max_left _ _

theorem isOver_of_ended {thread : Thread} (h : thread.ended = none) : thread.isOver = false := by
  cases thread with
  | closed ended => cases h
  | _ => rfl

/-- The thread goes on from one place to another, or to its end, without having drawn the last
frame. -/
theorem Inv.goto (h : Inv lines s) {thread : Thread} (hgoing : s.thread.ended = none)
    (hover' : thread.isOver = false) (hended' : (thread.ended == some .drawn) = false)
    {pending : Option Stop} {line : L} {hidden : Bool} {area : Rect}
    {presses interrupts : ℕ} (hpresses : interrupts + thread.interrupting? = presses) :
    Inv lines { s with
      pending := pending
      line := line
      hidden := hidden
      area := area
      thread := thread
      presses := presses
      interrupts := interrupts } := by
  have hover : s.thread.isOver = false := isOver_of_ended hgoing
  have hlast : Last (thread.ended == some .drawn) s.frames := by
    have hold := h.last
    rw [hgoing] at hold
    rw [hended']
    exact hold
  refine ⟨fun _ => h.raw hover, fun hthread => ?_, fun ended howner => ?_, fun howner => ?_,
    h.drawn, hlast, hpresses⟩
  · exact absurd hthread (by rw [hover']; exact Bool.false_ne_true)
  · have hold := h.finished ended howner
    rw [hold] at hover
    cases hover
  · have hold := h.dropped howner
    rw [hover] at hold
    cases hold

/-- A step outside of the thread. -/
theorem Inv.outside (h : Inv lines s) {now : ℕ} {line : L} {owner : Owner} {pending : Option Stop}
    (hfinished : ∀ ended, owner = .finished ended → s.thread = .closed ended)
    (hdropped : owner = .dropped → s.thread.isOver = true) :
    Inv lines { s with now := now, line := line, pending := pending, owner := owner } := by
  refine ⟨h.raw, fun hover => ?_, hfinished, hdropped, h.drawn, h.last, h.presses⟩
  obtain ⟨restored, hrestored, hback⟩ := h.back hover
  exact ⟨restored, hrestored, hback.raw, hback.hidden, hback.row⟩

theorem Inv.draw (h : Inv lines s) {finishing : Option (ℕ × ℕ)}
    (hthread : s.thread = .drawing finishing) : Inv lines (s.draw lines) := by
  have hlast : ∀ frame ∈ s.frames, frame.done = false := by
    have hold := h.last
    rw [hthread] at hold
    exact hold
  have hpresses : s.interrupts = s.presses := by
    have hold := h.presses
    rw [hthread] at hold
    exact hold
  have hraw : s.raw = true := h.raw (by rw [hthread]; rfl)
  have howner : ∀ ended, s.owner ≠ .finished ended := by
    intro ended hfinished
    have hold := h.finished ended hfinished
    rw [hthread] at hold
    cases hold
  have hdropped : s.owner ≠ .dropped := by
    intro hdropped
    have hold := h.dropped hdropped
    rw [hthread] at hold
    cases hold
  have hframe : ∀ {done : Bool} {line : L}, (done = finishing.any fun since =>
      lines.settled s.line || decide (since.1 + since.2 ≤ s.now)) →
      line = lines.render (if done then lines.snap s.line else s.line) →
      ∀ frame ∈ s.frames ++ [⟨s.line, line, s.now, finishing, done⟩], frame.Drawn lines := by
    intro done line hdone hline frame hframe
    rcases List.mem_append.mp hframe with hframe | hframe
    · exact h.drawn frame hframe
    · rw [List.mem_singleton.mp hframe]
      exact ⟨hdone, hline⟩
  simp only [Session.draw, hthread]
  cases hdone : finishing.any fun since =>
      lines.settled s.line || decide (since.1 + since.2 ≤ s.now) with
  | true =>
      exact ⟨fun _ => hraw, nofun, fun ended hfinished => absurd hfinished (howner ended),
        fun hold => absurd hold hdropped, hframe hdone.symm rfl,
        ⟨s.frames, _, rfl, rfl, hlast⟩, hpresses⟩
  | false =>
      refine ⟨fun _ => hraw, nofun, fun ended hfinished => absurd hfinished (howner ended),
        fun hold => absurd hold hdropped, hframe hdone.symm rfl, fun frame hmem => ?_, hpresses⟩
      rcases List.mem_append.mp hmem with hmem | hmem
      · exact hlast frame hmem
      · rw [List.mem_singleton.mp hmem]

theorem Inv.next (h : Inv lines s) {e : Event L} (he : s.Enabled e) :
    Inv lines (s.next lines e) := by
  cases e with
  | tick => exact h.outside h.finished h.dropped
  | update change => exact h.outside h.finished h.dropped
  | finish cap => exact h.outside nofun nofun
  | drop panicking => exact h.outside nofun nofun
  | frame =>
      obtain ⟨finishing, hthread⟩ := he
      have hgoing : s.thread.ended = none := by
        rw [hthread]
        rfl
      have hpresses := h.presses
      rw [hthread] at hpresses
      simp only [Session.next, Session.receive, hthread]
      cases finishing with
      | some finishing => exact h.goto hgoing rfl rfl hpresses
      | none =>
          cases s.pending with
          | none => exact h.goto hgoing rfl rfl hpresses
          | some stop =>
              cases stop with
              | settle cap => exact h.goto hgoing rfl rfl hpresses
              | abandon => exact h.goto hgoing rfl rfl hpresses
  | autoresize area =>
      obtain ⟨finishing, hthread⟩ := he
      have hpresses := h.presses
      rw [hthread] at hpresses
      rw [Session.next, hthread]
      exact h.goto (by rw [hthread]; rfl) rfl rfl hpresses
  | draw =>
      obtain ⟨finishing, hthread⟩ := he
      exact h.draw hthread
  | drawFails failure left =>
      obtain ⟨finishing, hthread⟩ := he
      have hgoing : s.thread.ended = none := by
        rw [hthread]
        rfl
      have hpresses := h.presses
      rw [hthread] at hpresses
      cases failure with
      | before => exact h.goto hgoing rfl rfl hpresses
      | after hidden => exact h.goto hgoing rfl rfl hpresses
      | panics => exact h.goto hgoing rfl rfl hpresses
  | poll key =>
      obtain ⟨finishing, hthread⟩ := he
      have hgoing : s.thread.ended = none := by
        rw [hthread]
        rfl
      have hpresses := h.presses
      rw [hthread] at hpresses
      simp only [Session.next, hthread]
      split
      · exact h.goto hgoing rfl rfl (congrArg (· + 1) hpresses)
      · exact h.goto hgoing rfl rfl hpresses
  | pollFails =>
      obtain ⟨finishing, hthread⟩ := he
      have hpresses := h.presses
      rw [hthread] at hpresses
      exact h.goto (by rw [hthread]; rfl) rfl rfl hpresses
  | interrupt panics =>
      obtain ⟨finishing, hthread⟩ := he
      have hgoing : s.thread.ended = none := by
        rw [hthread]
        rfl
      have hpresses := h.presses
      rw [hthread] at hpresses
      simp only [Session.next, hthread]
      cases panics with
      | true => exact h.goto hgoing rfl rfl hpresses
      | false => exact h.goto hgoing rfl rfl hpresses
  | restore restored =>
      obtain ⟨ended, hthread⟩ := he
      have hlast := h.last
      have hpresses := h.presses
      have howner : ∀ other, s.owner ≠ .finished other := by
        intro other hfinished
        have hold := h.finished other hfinished
        rw [hthread] at hold
        cases hold
      rw [hthread] at hlast hpresses
      simp only [Session.next, hthread]
      refine ⟨nofun, fun _ => ⟨restored, rfl, fun hdisabled => ?_, fun hshown => ?_,
        fun hmoved => ?_⟩, fun other hfinished => absurd hfinished (howner other), fun _ => rfl,
        h.drawn, hlast, hpresses⟩
      · have hor : (restored.disabled || restored.disabledAgain) = true :=
          Bool.or_eq_true_iff.mpr hdisabled
        rw [hor, Bool.not_true, Bool.and_false]
      · rw [hshown, Bool.not_true, Bool.and_false]
      · rw [if_pos hmoved]
        exact (le_restoreRow s.area restored.cursor).1
  | join =>
      obtain ⟨⟨dropped, howner⟩, ended, hthread⟩ := he
      cases dropped with
      | true =>
          have hnext : s.next lines .join = { s with owner := .dropped } := by
            simp only [Session.next, howner, hthread]
          rw [hnext]
          refine h.outside nofun fun _ => ?_
          rw [hthread]
          rfl
      | false =>
          have hnext : s.next lines .join = { s with owner := .finished ended } := by
            simp only [Session.next, howner, hthread]
          rw [hnext]
          refine h.outside (fun other hfinished => ?_) nofun
          cases hfinished
          exact hthread

theorem inv_of_reachable (hr : (Session.machine lines).Reachable s) : Inv lines s := by
  refine hr.invariant ?_ ?_
  · rintro _ ⟨line, y, width, height, rows, rfl⟩
    exact ⟨fun _ => rfl, nofun, nofun, nofun, nofun, nofun, rfl⟩
  · rintro s e _ h ⟨he, rfl⟩
    exact h.next he

/-- Whatever fails or panics on the way, the thread ends only as the session is dropped: from then
on the terminal is out of raw mode, if it could be turned off at the first or the second try, its
cursor is shown, if it could be, and is on a row no higher than those of the line, if it could be
moved. What ends the session returns only then, with what the thread ended of; and every Ctrl-C
that was read has called back once. A session that drew to its end has drawn the line snapped to
its own in the last frame and in no other, and once it was told to finish it drew none before it
when the line had settled or the time was up. -/
theorem ended_well (hr : (Session.machine lines).Reachable s) :
    (s.thread.isOver = false → s.raw = true) ∧
    (s.thread.isOver = true → ∃ restored, s.restored = some restored ∧ Back restored s) ∧
    (∀ ended, s.owner = .finished ended → s.thread = .closed ended) ∧
    (s.owner = .dropped → s.thread.isOver = true) ∧
    (s.thread.isOver = true → s.interrupts = s.presses) ∧
    (s.thread = .closed .drawn → ∃ before frame, s.frames = before ++ [frame] ∧
      frame.line = lines.render (lines.snap frame.before) ∧
      ∀ other ∈ before, other.line = lines.render other.before ∧
        ∀ since, other.finishing = some since →
          lines.settled other.before = false ∧ other.time < since.1 + since.2) := by
  have h := inv_of_reachable hr
  refine ⟨h.raw, h.back, h.finished, h.dropped, fun hover => ?_, fun hdrawn => ?_⟩
  · have hpresses := h.presses
    cases hthread : s.thread with
    | closed ended =>
        rw [hthread] at hpresses
        exact hpresses
    | _ => simp [hthread, Thread.isOver] at hover
  · have hlast := h.last
    rw [hdrawn] at hlast
    obtain ⟨before, frame, hframes, hdone, hothers⟩ := hlast
    have hdrawns := h.drawn
    rw [hframes] at hdrawns
    refine ⟨before, frame, hframes, ?_, fun other hother => ?_⟩
    · have hline := (hdrawns frame (List.mem_append_right _ List.mem_cons_self)).line
      rwa [hdone, if_pos rfl] at hline
    · have hdrawn := hdrawns other (List.mem_append_left _ hother)
      have hnot := hothers other hother
      refine ⟨?_, fun since hsince => ?_⟩
      · have hline := hdrawn.line
        rwa [hnot, if_neg Bool.false_ne_true] at hline
      · have hdone := hdrawn.done
        rw [hnot, hsince, Option.any_some] at hdone
        obtain ⟨hsettled, htime⟩ := Bool.or_eq_false_iff.mp hdone.symm
        exact ⟨hsettled, Nat.lt_of_not_le (of_decide_eq_false htime)⟩

end Invariant

/-! ## A session let settle -/

/-- A line that eases by one to ten. -/
def easing : LiveLine ℕ where
  render n := min (n + 1) 10
  settled n := n == 10
  snap _ := 10

/-- It is interrupted once, and the time runs out before it has settled. The first try to turn raw
mode off fails. -/
def cutShort : List (Event ℕ) :=
  [.frame, .draw, .poll (some ⟨'c', true, true⟩), .interrupt false, .finish 2, .frame, .draw, .tick,
    .poll none, .frame, .tick, .draw, .restore ⟨some 7, false, true, true, true⟩, .join]

/-- The terminal is put back, and the last frame has the line at its end all the same. -/
theorem ended_well_cutShort :
    (cutShort.foldl (Session.next easing) (Session.new 0 ⟨0, 3, 40, viewport 2 24⟩)).raw = false ∧
    (cutShort.foldl (Session.next easing) (Session.new 0 ⟨0, 3, 40, viewport 2 24⟩)).hidden =
      false ∧
    ∃ before frame,
      (cutShort.foldl (Session.next easing) (Session.new 0 ⟨0, 3, 40, viewport 2 24⟩)).frames =
        before ++ [frame] ∧ frame.line = 10 ∧
      ∀ other ∈ before, other.line = min (other.before + 1) 10 := by
  have hlegal : Machine.Legal Session.Enabled (Session.next easing)
      (Session.new 0 ⟨0, 3, 40, viewport 2 24⟩) cutShort :=
    ⟨⟨_, rfl⟩, ⟨_, rfl⟩, ⟨_, rfl⟩, ⟨_, rfl⟩, rfl, ⟨_, rfl⟩, ⟨_, rfl⟩, trivial, ⟨_, rfl⟩, ⟨_, rfl⟩,
      trivial, ⟨_, rfl⟩, ⟨_, rfl⟩, ⟨⟨_, rfl⟩, _, rfl⟩, trivial⟩
  have hr := (Machine.Reachable.start (M := Session.machine easing) ⟨0, 3, 40, 2, 24,
    rfl⟩).legal hlegal
  obtain ⟨_, hover, _, _, _, hdrawn⟩ := ended_well hr
  obtain ⟨restored, hrestored, hback⟩ := hover rfl
  obtain ⟨before, frame, hframes, hline, hothers⟩ := hdrawn rfl
  cases hrestored
  exact ⟨hback.raw (.inr rfl), hback.hidden rfl, before, frame, hframes, hline,
    fun other hother => (hothers other hother).1⟩

end Live

end Tui

end RustSak
