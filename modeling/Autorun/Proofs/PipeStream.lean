import Autorun.Server.Pipe

namespace Autorun.Server.HorizonPipe
open Lib List

/-! What the two loops do to the pipe. -/

/-- The counters describe a piece of the ring. -/
structure Pipe.Exact (p : Pipe) : Prop where
  head : p.head < bufferSize
  used : p.used ≤ bufferSize
  tail : p.tail = (p.head + p.used) % bufferSize

/-- Only the buffer and its counters differ. -/
structure Pipe.Same (p p' : Pipe) : Prop where
  refs : p'.refs = p.refs
  readOpen : p'.readOpen = p.readOpen
  writeOpen : p'.writeOpen = p.writeOpen
  readWaiters : p'.readWaiters = p.readWaiters
  writeWaiters : p'.writeWaiters = p.writeWaiters

variable {p : Pipe}

theorem Pipe.Same.trans {q r : Pipe} (h : p.Same q) (h' : q.Same r) : p.Same r :=
  ⟨h'.refs.trans h.refs, h'.readOpen.trans h.readOpen, h'.writeOpen.trans h.writeOpen,
    h'.readWaiters.trans h.readWaiters, h'.writeWaiters.trans h.writeWaiters⟩

theorem Pipe.Same.refl (p : Pipe) : p.Same p := ⟨rfl, rfl, rfl, rfl, rfl⟩

theorem Pipe.Same.form (h : p.Same p') :
    ∃ head tail used buffer, p' = { p with head, tail, used, buffer } := by
  obtain ⟨refs, readOpen, writeOpen, head, tail, used, readWaiters, writeWaiters, buffer⟩ := p'
  obtain ⟨rfl, rfl, rfl, rfl, rfl⟩ := h
  exact ⟨head, tail, used, buffer, rfl⟩

/-- Bytes have gone from the writer's call into the pipe. -/
structure Put (p : Pipe) (t : Transfer) (p' : Pipe) (t' : Transfer) : Prop where
  same : p.Same p'
  exact : p'.Exact
  bytes : ∃ bs, p'.unread = p.unread ++ bs ∧ t'.moved = t.moved ++ bs

theorem Put.refl (h : p.Exact) (t : Transfer) : Put p t p t :=
  ⟨.refl p, h, [], (append_nil _).symm, (append_nil _).symm⟩

theorem Put.trans (h : Put p t p' t') (h' : Put p' t' q u) : Put p t q u := by
  obtain ⟨bs, hp, ht⟩ := h.bytes
  obtain ⟨cs, hq, hu⟩ := h'.bytes
  exact ⟨h.same.trans h'.same, h'.exact, bs ++ cs, by rw [hq, hp, append_assoc],
    by rw [hu, ht, append_assoc]⟩

/-- Bytes have gone from the pipe to the reader's call. -/
structure Take (p : Pipe) (t : Transfer) (p' : Pipe) (t' : Transfer) : Prop where
  same : p.Same p'
  exact : p'.Exact
  bytes : ∃ bs, p.unread = bs ++ p'.unread ∧ t'.moved = t.moved ++ bs
  total : p'.used + t'.total = p.used + t.total

theorem Take.refl (h : p.Exact) (t : Transfer) : Take p t p t :=
  ⟨.refl p, h, ⟨[], rfl, (append_nil _).symm⟩, rfl⟩

theorem Take.trans (h : Take p t p' t') (h' : Take p' t' q u) : Take p t q u := by
  obtain ⟨bs, hp, ht⟩ := h.bytes
  obtain ⟨cs, hq, hu⟩ := h'.bytes
  exact ⟨h.same.trans h'.same, h'.exact,
    ⟨bs ++ cs, by rw [hp, hq, append_assoc], by rw [hu, ht, append_assoc]⟩,
    h'.total.trans h.total⟩

variable {t : Transfer}

theorem put_spec (h : p.Exact) (hroom : p.used ≠ bufferSize)
    (hlen : t.total < t.len) :
    Put p t (p.put t).1 (p.put t).2 ∧ t.total < (p.put t).2.total ∧ (p.put t).2.len = t.len := by
  obtain ⟨hhead, hused, htail⟩ := h
  -- The chunk is neither empty nor longer than what is free behind `tail`.
  obtain ⟨chunk, hchunk⟩ : ∃ chunk, chunk =
      min (min (t.len - t.total) (bufferSize - p.used)) (bufferSize - p.tail) := ⟨_, rfl⟩
  have hput : p.put t =
      ({ p with buffer := overwrite p.buffer p.tail (slice t.ptr t.total chunk)
                tail := (p.tail + chunk) % bufferSize
                used := p.used + chunk },
        { t with total := t.total + chunk }) := by
    rw [hchunk]
    rfl
  rw [hput]
  dsimp only
  simp only [bufferSize] at hhead hused htail hroom hchunk
  refine ⟨⟨⟨rfl, rfl, rfl, rfl, rfl⟩, ⟨hhead, ?_, ?_⟩, slice t.ptr t.total chunk, ?_, ?_⟩, by omega, rfl⟩
  · dsimp only [bufferSize]
    omega
  · dsimp only [bufferSize]
    omega
  · rw [slice_eq_map]
    refine RingQueue.contents_extend ⟨p.buffer, p.head, p.used, bufferSize⟩ ?_ ?_
    · intro i hi
      dsimp only [bufferSize] at hi ⊢
      refine overwrite_outside _ _ _ ?_
      rw [length_map, length_range]
      omega
    · intro i hi
      dsimp only [bufferSize]
      have hplace : (p.head + (p.used + i)) % 65536 = p.tail + i := by omega
      rw [hplace, overwrite_inside _ _ _ (by omega) (by
        rw [length_map, length_range]
        omega)]
      simp
  · unfold Transfer.moved
    rw [← slice_add, Nat.zero_add]

theorem take_spec (h : p.Exact) (hbytes : p.used ≠ 0)
    (hlen : t.total < t.len) :
    Take p t (p.take t).1 (p.take t).2 ∧ t.total < (p.take t).2.total ∧ (p.take t).2.len = t.len := by
  obtain ⟨hhead, hused, htail⟩ := h
  obtain ⟨chunk, hchunk⟩ : ∃ chunk, chunk =
      min (min (t.len - t.total) p.used) (bufferSize - p.head) := ⟨_, rfl⟩
  have htake : p.take t =
      ({ p with head := (p.head + chunk) % bufferSize, used := p.used - chunk },
        { t with ptr := overwrite t.ptr t.total (slice p.buffer p.head chunk)
                 total := t.total + chunk }) := by
    rw [hchunk]
    rfl
  rw [htake]
  dsimp only
  simp only [bufferSize] at hhead hused htail hchunk
  refine ⟨⟨⟨rfl, rfl, rfl, rfl, rfl⟩, ⟨?_, ?_, ?_⟩, ⟨slice p.buffer p.head chunk, ?_, ?_⟩, ?_⟩,
    by omega, rfl⟩
  · exact Nat.mod_lt _ (by decide)
  · dsimp only [bufferSize]
    omega
  · dsimp only [bufferSize]
    omega
  · refine (RingQueue.contents_split ⟨p.buffer, p.head, p.used, bufferSize⟩
      (k := chunk) (by dsimp only; omega)).trans ?_
    rw [slice_eq_map]
    congr 1
    refine map_congr_left fun i hi => ?_
    have hi : i < chunk := mem_range.mp hi
    dsimp only [bufferSize]
    rw [Nat.mod_eq_of_lt (by omega)]
  · have hread := slice_overwrite t.ptr t.total (slice p.buffer p.head chunk)
    rwa [slice_length] at hread
  · dsimp only
    omega

/-- What a writer can have done when it lets go of the lock. -/
inductive WriteLeaves (p : Pipe) (t : Transfer) : Leave → Prop
  | full (h : Put p t p' t') (hopen : p'.readOpen = true) (hfull : p'.used = bufferSize) :
    WriteLeaves p t
      (.waits { p' with writeWaiters := p'.writeWaiters + 1 } t' (p'.readWaiters ≠ 0))
  | gone (hopen : p.readOpen = false) (result : Result) : WriteLeaves p t (.returns p t result false)
  | done (h : Put p t p' t') (result : Result) :
    WriteLeaves p t (.returns p' t' result (p'.readWaiters ≠ 0))

theorem WriteLeaves.after (h : Put p t p' t') (hl : WriteLeaves p' t' l) (hopen : p'.readOpen = true) :
    WriteLeaves p t l := by
  cases hl with
  | full h' ho hf => exact .full (h.trans h') ho hf
  | gone ho => rw [hopen] at ho; cases ho
  | done h' result => exact .done (h.trans h') result

variable {turns : Nat}

theorem writeLoop_leaves (h : p.Exact)
    (hturns : t.len - t.total < turns) : ∃ l, writeLoop turns p t = some l ∧ WriteLeaves p t l := by
  induction turns generalizing p t with
  | zero => omega
  | succ turns ih =>
    unfold writeLoop
    split
    case isFalse => exact ⟨_, rfl, .done (.refl h t) _⟩
    case isTrue hlen =>
      split
      case isTrue hfull => exact ⟨_, rfl, .full (.refl h t) hfull.1 hfull.2⟩
      case isFalse hroom =>
        split
        case isTrue hgone => exact ⟨_, rfl, .gone hgone _⟩
        case isFalse hopen =>
          have hopen : p.readOpen = true := Bool.not_eq_false _ ▸ hopen
          obtain ⟨hput, htotal, hsame⟩ := put_spec h (fun hf => hroom ⟨hopen, hf⟩) hlen
          obtain ⟨l, hl, hleaves⟩ := ih (t := (p.put t).2) hput.exact (by omega)
          exact ⟨l, hl, hleaves.after hput (hput.same.readOpen.trans hopen)⟩

/-- What a reader can have done when it lets go of the lock. -/
inductive ReadLeaves (p : Pipe) (t : Transfer) : Leave → Prop
  | empty (h : Take p t p' t') (hopen : p'.writeOpen = true) (hempty : p'.used = 0) :
    ReadLeaves p t
      (.waits { p' with readWaiters := p'.readWaiters + 1 } t' (t'.total ≠ 0 ∧ p'.writeWaiters ≠ 0))
  | ended (h : Take p t p' t') (hopen : p'.writeOpen = false) (hempty : p'.used = 0) (result : Result) :
    ReadLeaves p t (.returns p' t' result false)
  | done (h : Take p t p' t') (result : Result) :
    ReadLeaves p t (.returns p' t' result (p'.writeWaiters ≠ 0))

theorem ReadLeaves.after (h : Take p t p' t') (hl : ReadLeaves p' t' l) : ReadLeaves p t l := by
  cases hl with
  | empty h' ho he => exact .empty (h.trans h') ho he
  | ended h' ho he result => exact .ended (h.trans h') ho he result
  | done h' result => exact .done (h.trans h') result

theorem readLoop_leaves (h : p.Exact)
    (hturns : t.len - t.total < turns) : ∃ l, readLoop turns p t = some l ∧ ReadLeaves p t l := by
  induction turns generalizing p t with
  | zero => omega
  | succ turns ih =>
    unfold readLoop
    split
    case isFalse => exact ⟨_, rfl, .done (.refl h t) _⟩
    case isTrue hlen =>
      split
      case isTrue hempty => exact ⟨_, rfl, .empty (.refl h t) hempty.1 hempty.2⟩
      case isFalse hopen =>
        split
        case isTrue hempty =>
          exact ⟨_, rfl, .ended (.refl h t) (Bool.eq_false_iff.mpr fun ho => hopen ⟨ho, hempty⟩) hempty _⟩
        case isFalse hbytes =>
          obtain ⟨htake, htotal, hsame⟩ := take_spec h hbytes hlen
          obtain ⟨l, hl, hleaves⟩ := ih (t := (p.take t).2) htake.exact (by omega)
          exact ⟨l, hl, hleaves.after htake⟩

/-! The two threads. -/

/-- How often a thread is counted in its waiters. -/
def Phase.waiters : Phase → Nat
  | .asleep _ | .woken _ => 1
  | _ => 0

def File.refs : File → Nat
  | .closed => 0
  | _ => 1

@[simp] theorem moved_signal (phase : Phase) : phase.signal.moved = phase.moved := by
  cases phase <;> rfl

@[simp] theorem waiters_signal (phase : Phase) : phase.signal.waiters = phase.waiters := by
  cases phase <;> rfl

@[simp] theorem idle_signal (phase : Phase) : phase.signal.Idle ↔ phase.Idle := by
  cases phase <;> rfl

@[simp] theorem signalling_signal (phase : Phase) : phase.signal.Signalling ↔ phase.Signalling := by
  cases phase <;> rfl

@[simp] theorem not_asleep_signal (phase : Phase) : ¬ phase.signal.Asleep := by
  cases phase <;> exact id

variable {phase : Phase}

theorem Phase.Asleep.waiters (h : phase.Asleep) : phase.waiters = 1 := by
  cases phase with
  | asleep t => rfl
  | _ => exact h.elim

theorem Phase.Asleep.not_idle (h : phase.Asleep) : ¬ phase.Idle := by
  cases phase with
  | asleep t => exact id
  | _ => exact h.elim

@[simp] theorem moved_signalIf (phase : Phase) (b : Bool) : (phase.signalIf b).moved = phase.moved := by
  cases b <;> simp [Phase.signalIf]

@[simp] theorem waiters_signalIf (phase : Phase) (b : Bool) :
    (phase.signalIf b).waiters = phase.waiters := by
  cases b <;> simp [Phase.signalIf]

@[simp] theorem idle_signalIf (phase : Phase) (b : Bool) : (phase.signalIf b).Idle ↔ phase.Idle := by
  cases b <;> simp [Phase.signalIf]

@[simp] theorem signalling_signalIf (phase : Phase) (b : Bool) :
    (phase.signalIf b).Signalling ↔ phase.Signalling := by
  cases b <;> simp [Phase.signalIf]

theorem asleep_signalIf {b : Bool} (h : (phase.signalIf b).Asleep) : b = false ∧ phase.Asleep := by
  cases b with
  | false => exact ⟨rfl, h⟩
  | true => exact absurd h (not_asleep_signal phase)

@[simp] theorem moved_leaving (b : Bool) : (Phase.leaving b).moved = [] := by
  cases b <;> rfl

@[simp] theorem waiters_leaving (b : Bool) : (Phase.leaving b).waiters = 0 := by
  cases b <;> rfl

@[simp] theorem not_asleep_leaving (b : Bool) : ¬ (Phase.leaving b).Asleep := by
  cases b <;> exact id

@[simp] theorem signalling_leaving (b : Bool) : (Phase.leaving b).Signalling ↔ b = true := by
  cases b <;> simp [Phase.leaving, Phase.Signalling]

/-- A thread in a call has its end open. One that sleeps has nothing to do, unless the other one is about to
signal it. -/
structure World.Inv (w : World) : Prop where
  exact : w.pipe.Exact
  stream : w.sent = w.received ++ w.pipe.unread
  writeOpen : w.pipe.writeOpen = true ↔ w.writeFile = .opened
  readOpen : w.pipe.readOpen = true ↔ w.readFile = .opened
  refs : w.pipe.refs = w.writeFile.refs + w.readFile.refs
  inWrite : w.writer.Idle ∨ w.writeFile = .opened
  inRead : w.reader.Idle ∨ w.readFile = .opened
  writeWaiters : w.pipe.writeWaiters = w.writer.waiters
  readWaiters : w.pipe.readWaiters = w.reader.waiters
  writerSleeps : w.writer.Asleep →
    (w.pipe.used = bufferSize ∧ w.pipe.readOpen = true) ∨ w.reader.Signalling
  readerSleeps : w.reader.Asleep → (w.pipe.used = 0 ∧ w.pipe.writeOpen = true) ∨ w.writer.Signalling
  fault : w.fault = false

variable {w : World}

theorem World.Inv.signal (h : w.Inv) (a b : Bool) :
    World.Inv { w with writer := w.writer.signalIf a, reader := w.reader.signalIf b } :=
  { h with
    stream := by
      show w.written ++ (w.writer.signalIf a).moved = w.read ++ (w.reader.signalIf b).moved ++ _
      rw [moved_signalIf, moved_signalIf]
      exact h.stream
    inWrite := h.inWrite.imp_left (idle_signalIf _ _).mpr
    inRead := h.inRead.imp_left (idle_signalIf _ _).mpr
    writeWaiters := h.writeWaiters.trans (waiters_signalIf _ _).symm
    readWaiters := h.readWaiters.trans (waiters_signalIf _ _).symm
    writerSleeps := fun hw =>
      (h.writerSleeps (asleep_signalIf hw).2).imp_right (signalling_signalIf _ _).mpr
    readerSleeps := fun hr =>
      (h.readerSleeps (asleep_signalIf hr).2).imp_right (signalling_signalIf _ _).mpr }

/-- The writer lets go of the lock that it has held since it was idle or in a wait. -/
theorem World.Inv.leaveWrite (h : w.Inv) (hfile : w.writeFile = .opened)
    (hmoved : t.moved = w.writer.moved) (hheld : ¬ w.writer.Signalling)
    (hl : WriteLeaves { w.pipe with writeWaiters := 0 } t l) : (w.leaveWrite (some l)).Inv := by
  have hsent {p' : Pipe} {t' : Transfer} {bs : List UInt8} (hu : p'.unread = w.pipe.unread ++ bs)
      (hb : t'.moved = t.moved ++ bs) : w.written ++ t'.moved = w.received ++ p'.unread := by
    rw [hu, hb, hmoved, ← append_assoc, ← append_assoc, ← h.stream]
    rfl
  cases hl with
  | @full p' t' hput hopen hfull =>
    obtain ⟨bs, hunread, hbytes⟩ := hput.bytes
    obtain ⟨hhead, hused, htail⟩ := hput.exact
    obtain ⟨head, tail, used, buffer, rfl⟩ := hput.same.form
    refine { h.signal false _ with
      exact := ⟨hhead, hused, htail⟩
      stream := ?_
      inWrite := .inr hfile
      writeWaiters := rfl
      writerSleeps := fun _ => .inl ⟨hfull, hopen⟩
      readerSleeps := fun hr => ?_ }
    · show w.written ++ t'.moved = w.read ++ (w.reader.signalIf _).moved ++ _
      rw [moved_signalIf]
      exact hsent hunread hbytes
    · obtain ⟨hb, hasleep⟩ := asleep_signalIf hr
      simp [h.readWaiters, hasleep.waiters] at hb
  | gone hopen result =>
    refine { h with
      exact := ⟨h.exact.head, h.exact.used, h.exact.tail⟩
      stream := ?_
      inWrite := .inr hfile
      writeWaiters := rfl
      writerSleeps := False.elim
      readerSleeps := fun hr => .inl ((h.readerSleeps hr).resolve_right hheld) }
    show w.written ++ t.moved ++ [] = w.received ++ w.pipe.unread
    rw [append_nil, hmoved]
    exact h.stream
  | @done p' t' hput result =>
    obtain ⟨bs, hunread, hbytes⟩ := hput.bytes
    have hexact := hput.exact
    obtain ⟨head, tail, used, buffer, rfl⟩ := hput.same.form
    refine { h with
      exact := hexact
      stream := ?_
      inWrite := .inr hfile
      writeWaiters := (waiters_leaving _).symm
      writerSleeps := fun hw => absurd hw (not_asleep_leaving _)
      readerSleeps := fun hr => .inr ((signalling_leaving _).mpr ?_) }
    · show w.written ++ t'.moved ++ (Phase.leaving _).moved = _
      rw [moved_leaving, append_nil]
      exact hsent hunread hbytes
    · have hone : w.pipe.readWaiters = 1 := h.readWaiters.trans hr.waiters
      simp [hone]

/-- The same for the reader. Where it leaves the buffer less than full it has taken something, and tells the
writer. -/
theorem World.Inv.leaveRead (h : w.Inv) (hfile : w.readFile = .opened)
    (hmoved : t.moved = w.reader.moved) (hheld : ¬ w.reader.Signalling)
    (hl : ReadLeaves { w.pipe with readWaiters := 0 } t l) : (w.leaveRead (some l)).Inv := by
  have hreceived {t' : Transfer} {bs rest : List UInt8} (hu : w.pipe.unread = bs ++ rest)
      (hb : t'.moved = t.moved ++ bs) : w.sent = w.read ++ t'.moved ++ rest := by
    rw [h.stream, hu, hb, hmoved, World.received]
    simp
  cases hl with
  | @empty p' t' htake hopen hempty =>
    obtain ⟨bs, hunread, hbytes⟩ := htake.bytes
    obtain ⟨hhead, hused, htail⟩ := htake.exact
    have hall := htake.total
    obtain ⟨head, tail, used, buffer, rfl⟩ := htake.same.form
    refine { h.signal _ false with
      exact := ⟨hhead, hused, htail⟩
      stream := ?_
      inRead := .inr hfile
      readWaiters := rfl
      writerSleeps := fun hw => ?_
      readerSleeps := fun _ => .inl ⟨hempty, hopen⟩ }
    · show w.written ++ (w.writer.signalIf _).moved = w.read ++ t'.moved ++ _
      rw [moved_signalIf]
      exact hreceived hunread hbytes
    · obtain ⟨hb, hasleep⟩ := asleep_signalIf hw
      have hfull := ((h.writerSleeps hasleep).resolve_right hheld).1
      have htotal : t'.total ≠ 0 := by
        dsimp only at hall hempty
        omega
      simp [h.writeWaiters, hasleep.waiters, htotal] at hb
  | @ended p' t' htake hopen hempty result =>
    obtain ⟨bs, hunread, hbytes⟩ := htake.bytes
    have hexact := htake.exact
    obtain ⟨head, tail, used, buffer, rfl⟩ := htake.same.form
    -- Nobody writes any more: the writer is out of its last call.
    have hidle : w.writer.Idle := h.inWrite.resolve_right fun ho =>
      absurd (h.writeOpen.mpr ho) (ne_true_of_eq_false hopen)
    refine { h with
      exact := hexact
      stream := ?_
      inRead := .inr hfile
      readWaiters := rfl
      writerSleeps := fun hw => absurd hidle hw.not_idle
      readerSleeps := False.elim }
    show w.sent = w.read ++ t'.moved ++ [] ++ _
    rw [append_nil]
    exact hreceived hunread hbytes
  | @done p' t' htake result =>
    obtain ⟨bs, hunread, hbytes⟩ := htake.bytes
    have hexact := htake.exact
    obtain ⟨head, tail, used, buffer, rfl⟩ := htake.same.form
    refine { h with
      exact := hexact
      stream := ?_
      inRead := .inr hfile
      readWaiters := (waiters_leaving _).symm
      writerSleeps := fun hw => .inr ((signalling_leaving _).mpr ?_)
      readerSleeps := fun hr => absurd hr (not_asleep_leaving _) }
    · show w.sent = w.read ++ t'.moved ++ (Phase.leaving _).moved ++ _
      rw [moved_leaving, append_nil]
      exact hreceived hunread hbytes
    · have hone : w.pipe.writeWaiters = 1 := h.writeWaiters.trans hw.waiters
      simp [hone]

theorem World.Inv.use {after : World} (h : w.Inv) (hfile : w.writeFile ≠ .closed ∨ w.readFile ≠ .closed)
    (hafter : after.Inv) : (w.use after).Inv := by
  have hrefs : w.pipe.refs ≠ 0 := by
    rw [h.refs]
    cases hw : w.writeFile <;> cases hr : w.readFile <;> simp_all [File.refs]
  rw [World.use, if_neg hrefs]
  exact hafter

theorem World.Inv.write_section (h : w.Inv)
    (hfile : w.writeFile = .opened) (hmoved : t.moved = w.writer.moved) (hheld : ¬ w.writer.Signalling)
    (hturns : t.len - t.total < turns) :
    (w.use (w.leaveWrite (writeLoop turns { w.pipe with writeWaiters := 0 } t))).Inv := by
  obtain ⟨l, hloop, hl⟩ :=
    writeLoop_leaves (p := { w.pipe with writeWaiters := 0 }) ⟨h.exact.head, h.exact.used, h.exact.tail⟩ hturns
  rw [hloop]
  exact h.use (.inl (by rw [hfile]; decide)) (h.leaveWrite hfile hmoved hheld hl)

theorem World.Inv.read_section (h : w.Inv)
    (hfile : w.readFile = .opened) (hmoved : t.moved = w.reader.moved) (hheld : ¬ w.reader.Signalling)
    (hturns : t.len - t.total < turns) :
    (w.use (w.leaveRead (readLoop turns { w.pipe with readWaiters := 0 } t))).Inv := by
  obtain ⟨l, hloop, hl⟩ :=
    readLoop_leaves (p := { w.pipe with readWaiters := 0 }) ⟨h.exact.head, h.exact.used, h.exact.tail⟩ hturns
  rw [hloop]
  exact h.use (.inr (by rw [hfile]; decide)) (h.leaveRead hfile hmoved hheld hl)

theorem World.Inv.returns (h : w.Inv) (side : Side) (result : Result) :
    (w.returns side result).Inv := { h with }

theorem World.Inv.write (h : w.Inv) (ptr : Nat → UInt8) (len : Nat)
    (hfile : w.writeFile ≠ .closing) : (w.step (.write ptr len)).Inv := by
  unfold World.step
  cases hw : w.writer with
  | idle =>
    cases hf : w.writeFile with
    | closed => exact h.returns _ _
    | closing => exact absurd hf hfile
    | opened =>
      dsimp only
      split
      case isTrue => exact h.returns _ _
      case isFalse =>
        have hnone : w.pipe.writeWaiters = 0 := by rw [h.writeWaiters, hw]; rfl
        have hpipe : { w.pipe with writeWaiters := 0 } = w.pipe := by rw [← hnone]
        have hstep := h.write_section (t := { ptr := ptr, len := len }) hf (by rw [hw]; rfl)
          (by rw [hw]; exact id) (Nat.lt_succ_self len)
        rwa [hpipe] at hstep
  | _ => exact h

theorem World.Inv.read_call (h : w.Inv) (ptr : Nat → UInt8) (len : Nat)
    (hfile : w.readFile ≠ .closing) : (w.step (.read ptr len)).Inv := by
  unfold World.step
  cases hr : w.reader with
  | idle =>
    cases hf : w.readFile with
    | closed => exact h.returns _ _
    | closing => exact absurd hf hfile
    | opened =>
      dsimp only
      split
      case isTrue => exact h.returns _ _
      case isFalse =>
        have hnone : w.pipe.readWaiters = 0 := by rw [h.readWaiters, hr]; rfl
        have hpipe : { w.pipe with readWaiters := 0 } = w.pipe := by rw [← hnone]
        have hstep := h.read_section (t := { ptr := ptr, len := len }) hf (by rw [hr]; rfl)
          (by rw [hr]; exact id) (Nat.lt_succ_self len)
        rwa [hpipe] at hstep
  | _ => exact h

theorem World.Inv.wakes (h : w.Inv) (side : Side) : (w.step (.wakes side)).Inv := by
  cases side with
  | write => exact h.signal true false
  | read => exact h.signal false true

theorem World.Inv.resumes (h : w.Inv) (side : Side) : (w.step (.resumes side)).Inv := by
  cases side with
  | write =>
    unfold World.step
    cases hw : w.writer with
    | woken t =>
      have hfile : w.writeFile = .opened := h.inWrite.resolve_left (by rw [hw]; exact id)
      have hone : w.pipe.writeWaiters = 1 := by rw [h.writeWaiters, hw]; rfl
      rw [hone]
      exact h.write_section hfile (by rw [hw]; rfl) (by rw [hw]; exact id) (Nat.lt_succ_self _)
    | _ => exact h
  | read =>
    unfold World.step
    cases hr : w.reader with
    | woken t =>
      have hfile : w.readFile = .opened := h.inRead.resolve_left (by rw [hr]; exact id)
      have hone : w.pipe.readWaiters = 1 := by rw [h.readWaiters, hr]; rfl
      rw [hone]
      exact h.read_section hfile (by rw [hr]; rfl) (by rw [hr]; exact id) (Nat.lt_succ_self _)
    | _ => exact h

theorem World.Inv.signals (h : w.Inv) (side : Side) : (w.step (.signals side)).Inv := by
  cases side with
  | write =>
    unfold World.step
    cases hw : w.writer with
    | signalling =>
      have hfile : w.writeFile = .opened := h.inWrite.resolve_left (by rw [hw]; exact id)
      have hsignal := h.signal false true
      refine h.use (.inl (by rw [hfile]; decide)) { hsignal with
        stream := ?_
        inWrite := .inl trivial
        writeWaiters := by rw [h.writeWaiters, hw]; rfl
        writerSleeps := False.elim
        readerSleeps := fun hr => absurd hr (not_asleep_signal _) }
      have hnone : w.writer.moved = [] := by rw [hw]; rfl
      exact (congrArg (w.written ++ ·) hnone).symm.trans hsignal.stream
    | _ => exact h
  | read =>
    unfold World.step
    cases hr : w.reader with
    | signalling =>
      have hfile : w.readFile = .opened := h.inRead.resolve_left (by rw [hr]; exact id)
      have hsignal := h.signal true false
      refine h.use (.inr (by rw [hfile]; decide)) { hsignal with
        stream := ?_
        inRead := .inl trivial
        readWaiters := by rw [h.readWaiters, hr]; rfl
        writerSleeps := fun hw => absurd hw (not_asleep_signal _)
        readerSleeps := False.elim }
      have hnone : w.reader.moved = [] := by rw [hr]; rfl
      exact hsignal.stream.trans (congrArg (w.read ++ · ++ w.pipe.unread) hnone)
    | _ => exact h

theorem World.Inv.close_write (h : w.Inv) (hidle : w.writer.Idle) :
    (w.step (.close .write)).Inv := by
  unfold World.step
  dsimp only
  split
  case isFalse => exact h
  case isTrue hfile =>
    have hrefs := h.refs
    rw [hfile] at hrefs
    exact h.use (.inl (by rw [hfile]; decide)) { h.signal true true with
      exact := ⟨h.exact.head, h.exact.used, h.exact.tail⟩
      writeOpen := iff_of_false Bool.false_ne_true nofun
      refs := hrefs
      inWrite := .inl ((idle_signal _).mpr hidle)
      writerSleeps := fun hw => absurd hw (not_asleep_signal _)
      readerSleeps := fun hr => absurd hr (not_asleep_signal _) }

theorem World.Inv.close_read (h : w.Inv) (hidle : w.reader.Idle) : (w.step (.close .read)).Inv := by
  unfold World.step
  dsimp only
  split
  case isFalse => exact h
  case isTrue hfile =>
    have hrefs := h.refs
    rw [hfile] at hrefs
    exact h.use (.inr (by rw [hfile]; decide)) { h.signal true true with
      exact := ⟨h.exact.head, h.exact.used, h.exact.tail⟩
      readOpen := iff_of_false Bool.false_ne_true nofun
      refs := hrefs
      inRead := .inl ((idle_signal _).mpr hidle)
      writerSleeps := fun hw => absurd hw (not_asleep_signal _)
      readerSleeps := fun hr => absurd hr (not_asleep_signal _) }

theorem World.Inv.release (h : w.Inv) (side : Side) : (w.step (.release side)).Inv := by
  cases side with
  | write =>
    unfold World.step
    dsimp only
    split
    case isFalse => exact h
    case isTrue hfile =>
      have hrefs : w.pipe.refs - 1 = 0 + w.readFile.refs := by
        rw [h.refs, hfile]
        change 1 + w.readFile.refs - 1 = _
        omega
      have hopen : ¬ w.writeFile = .opened := fun ho => by rw [ho] at hfile; cases hfile
      exact h.use (.inl (by rw [hfile]; decide)) { h with
        exact := ⟨h.exact.head, h.exact.used, h.exact.tail⟩
        writeOpen := iff_of_false (mt h.writeOpen.mp hopen) nofun
        refs := hrefs
        inWrite := .inl (h.inWrite.resolve_right hopen) }
  | read =>
    unfold World.step
    dsimp only
    split
    case isFalse => exact h
    case isTrue hfile =>
      have hrefs : w.pipe.refs - 1 = w.writeFile.refs + 0 := by rw [h.refs, hfile]; rfl
      have hopen : ¬ w.readFile = .opened := fun ho => by rw [ho] at hfile; cases hfile
      exact h.use (.inr (by rw [hfile]; decide)) { h with
        exact := ⟨h.exact.head, h.exact.used, h.exact.tail⟩
        readOpen := iff_of_false (mt h.readOpen.mp hopen) nofun
        refs := hrefs
        inRead := .inl (h.inRead.resolve_right hopen) }

theorem World.Inv.step {act : Act} (hok : w.Apart act) (h : w.Inv) : (w.step act).Inv := by
  cases act with
  | write ptr len => exact h.write ptr len hok
  | read ptr len => exact h.read_call ptr len hok
  | wakes side => exact h.wakes side
  | resumes side => exact h.resumes side
  | signals side => exact h.signals side
  | close side =>
    cases side with
    | write => exact h.close_write hok
    | read => exact h.close_read hok
  | release side => exact h.release side

theorem World.Inv.start : World.Inv {} where
  exact := ⟨by decide, by decide, rfl⟩
  stream := rfl
  writeOpen := by decide
  readOpen := by decide
  refs := rfl
  inWrite := .inl trivial
  inRead := .inl trivial
  writeWaiters := rfl
  readWaiters := rfl
  writerSleeps := False.elim
  readerSleeps := False.elim
  fault := rfl

theorem World.Inv.not_stalled (h : w.Inv) : ¬ w.Stalled := by
  rintro (⟨hasleep, hready, hsignal⟩ | ⟨hasleep, hready, hsignal⟩)
  · obtain ⟨hused, hopen⟩ := (h.readerSleeps hasleep).resolve_right hsignal
    rw [hused, hopen] at hready
    simp at hready
  · obtain ⟨hused, hopen⟩ := (h.writerSleeps hasleep).resolve_right hsignal
    rw [hused, hopen] at hready
    simp at hready

/-- As long as no end is closed during a call on it, the pipe is a byte stream and no thread is left asleep:
what was written is what was read and what waits in the buffer, which the counters describe. -/
theorem stream_never_stalls (acts : List Act) (h : Allowed World.Apart World.step {} acts) :
    let w := run World.step {} acts
    w.received <+: w.sent ∧ w.sent = w.received ++ w.pipe.unread ∧
      (w.pipe.head < bufferSize ∧ w.pipe.used ≤ bufferSize ∧
        w.pipe.tail = (w.pipe.head + w.pipe.used) % bufferSize ∧ w.pipe.unread.length = w.pipe.used) ∧
      ¬ w.Stalled ∧ w.fault = false := by
  have hinv := run_allowed (P := World.Inv) (fun _ _ hok hi => hi.step hok) .start acts h
  exact ⟨⟨_, hinv.stream.symm⟩, hinv.stream,
    ⟨hinv.exact.head, hinv.exact.used, hinv.exact.tail, RingQueue.contents_length _⟩, hinv.not_stalled,
    hinv.fault⟩

/-- A write that is longer than the buffer, and both ends closed after the reader has had all of it. -/
def longWrite : List Act :=
  [.read (fun _ => 0) 65540, .write (fun _ => 7) 65540, .resumes .read, .resumes .write, .signals .write,
    .resumes .read, .close .write, .release .write, .close .read, .release .read]

theorem long_write_passes :
    Allowed World.Apart World.step {} longWrite ∧
      (run World.step {} longWrite).received <+: (run World.step {} longWrite).sent :=
  have h : Allowed World.Apart World.step {} longWrite := by decide +kernel
  ⟨h, (stream_never_stalls longWrite h).1⟩

/-- A writer whose end is closed while it waits for room goes back to sleep, and a reader that takes all there
is and more ends without a signal. -/
theorem closed_writer_sleeps_on :
    (run World.step {}
      [.write (fun _ => 0) 65537, .close .write, .resumes .write, .read (fun _ => 0) 65537]).Stalled := by
  decide +kernel

end Autorun.Server.HorizonPipe
