import Autorun.Lib.Rows
import Autorun.Server.SocketIo

namespace Autorun.Server.SocketIo

open Autorun.Lib List

variable {s s' : Sockets} {list list' : List Async} {a b : Async} {t : Try} {c : Call} {op m : Nat}
variable {stream : Stream} {sock : Nat} {direction : Direction} {watch : Nat → Option Polled} {now : UInt64}

/-- The client may still move bytes: it has not tried, or it blocked and goes on waiting. -/
def Try.mayMove (t : Try) : Prop := t.outcome = none ∨ (t.outcome = some true ∧ t.force = true)

instance (t : Try) : Decidable t.mayMove := inferInstanceAs (Decidable (_ ∨ (_ ∧ _)))

def Call.mayMove (c : Call) : Prop := c.kind = .io ∧ c.status = .alerted ∧ c.outcome ≠ some false

instance (c : Call) : Decidable c.mayMove := inferInstanceAs (Decidable (_ ∧ _ ∧ _))

/-- No operation that may still move bytes of the stream was started before. -/
def First (s : Sockets) (op : Nat) (stream : Stream) : Prop :=
  (∀ t ∈ s.trying, t.mayMove → t.stream = stream → op ≤ t.op) ∧
  (∀ a ∈ s.asyncs, a.waiting → a.stream = stream → op ≤ a.op) ∧
  ∀ c ∈ s.calls, c.mayMove → c.stream = stream → op ≤ c.op

instance (s : Sockets) (op : Nat) (stream : Stream) : Decidable (First s op stream) :=
  inferInstanceAs (Decidable (_ ∧ _ ∧ _))

/-- No operation started before is being tried on the stream or waits on it under another handle. -/
def FirstElsewhere (s : Sockets) (a : Async) : Prop :=
  (∀ t ∈ s.trying, t.mayMove → t.stream = a.stream → a.op ≤ t.op) ∧
  (∀ b ∈ s.asyncs, b.waiting → b.stream = a.stream → b.sock ≠ a.sock → a.op ≤ b.op) ∧
  ∀ c ∈ s.calls, c.mayMove → c.stream = a.stream → c.sock ≠ a.sock → a.op ≤ c.op

instance (s : Sockets) (a : Async) : Decidable (FirstElsewhere s a) :=
  inferInstanceAs (Decidable (_ ∧ _ ∧ _))

/-- No operation in the list and no client goes by the token. -/
def Unused (s : Sockets) (token : BitVec 32) : Prop :=
  (∀ a ∈ s.asyncs, a.id ≠ token) ∧ ∀ t ∈ s.trying, t.token ≠ token

instance (s : Sockets) (token : BitVec 32) : Decidable (Unused s token) := inferInstanceAs (Decidable (_ ∧ _))

/-- A direct try that moves bytes is the first of its stream; what the poller makes ready is the
first of those that the handle it looks at does not show; and ids are not in use. -/
def InTurn (s : Sockets) : Label → Prop
  | .start _ _ _ _ _ _ memory => Unused s (if memory then newId s.nextId else 1)
  | .accept .. => Unused s (newId s.nextId)
  | .attempt op bytes _ => bytes ≠ 0 → ∀ t ∈ s.trying, t.op = op → First s op t.stream
  | .poll _ watch => ∀ a ∈ s.asyncs, a.kind = .io → asyncNextQueued a.sock a.direction s.asyncs = some a →
      (watch a.sock).any (·.ready a.direction) → FirstElsewhere s a
  | .handOver .. => ∀ c ∈ s.calls, c.apcId ≠ newId s.apcIds
  | _ => True

instance (s : Sockets) (label : Label) : Decidable (InTurn s label) := by
  cases label <;> dsimp only [InTurn] <;> infer_instance

/-- Transfers of one stream stand in the order of the starts, the latest first. -/
def InOrder (log : List Transfer) : Prop :=
  log.Pairwise fun later earlier => later.stream = earlier.stream → earlier.op ≤ later.op

instance (log : List Transfer) : Decidable (InOrder log) :=
  inferInstanceAs (Decidable (log.Pairwise _))

/-! The operations by their numbers: the server's, those being tried, and those called. -/

namespace Sockets

variable (s : Sockets)

abbrev async (k : Nat) : Option Async := row Async.op s.asyncs k

abbrev client (k : Nat) : Option Try := row Try.op s.trying k

abbrev caller (k : Nat) : Option Call := row Call.op s.calls k

end Sockets

/-- The operations that may still move bytes of a stream. -/
def Mover (s : Sockets) (k : Nat) (stream : Stream) : Prop :=
  (∃ t, s.client k = some t ∧ t.mayMove ∧ t.stream = stream) ∨
  (∃ a, s.async k = some a ∧ a.waiting ∧ a.stream = stream) ∨
  ∃ c, s.caller k = some c ∧ c.mayMove ∧ c.stream = stream

/-- An operation that is about to move bytes by an APC. -/
def Active (s : Sockets) (k : Nat) (stream : Stream) : Prop :=
  (∃ a, s.async k = some a ∧ a.kind = .io ∧ a.state = .ready ∧ a.status = .alerted ∧ a.stream = stream) ∨
  ∃ c, s.caller k = some c ∧ c.kind = .io ∧ c.status = .alerted ∧ c.outcome = none ∧ c.stream = stream

structure Inv (s : Sockets) : Prop where
  sorted : (s.asyncs.map Async.op).Pairwise (· < ·)
  apart : (s.trying.map Try.op).Nodup ∧ (s.calls.map Call.op).Nodup
  known : ∀ k, s.started ≤ k → s.async k = none ∧ s.client k = none ∧ s.caller k = none
  -- the server and its clients agree on who tries and who runs what, and ids tell operations apart
  tokens : ∀ j k t a, s.client j = some t → s.async k = some a → a.id = t.token → k = j
  streams : ∀ k t a, s.client k = some t → s.async k = some a → a.stream = t.stream
  running : ∀ k a, s.async k = some a → a.state = .running → ∃ c, s.caller k = some c ∧ c.apcId = a.apcId
  called : ∀ k c, s.caller k = some c → c.apcId ≠ 0 ∧ ∃ a, s.async k = some a ∧ a.state = .running ∧
    a.sock = c.sock ∧ a.stream = c.stream ∧ a.kind = c.kind
  apcs : ∀ j k c c', s.caller j = some c → s.caller k = some c' → c.apcId = c'.apcId → j = k
  told : ∀ k, (∀ a, s.async k = some a → a.kind = .io → a.status ≠ .pending) ∧
    ∀ c, s.caller k = some c → c.kind = .io → c.status ≠ .pending
  -- what is active is the first of its stream, and so is what has moved bytes
  first : ∀ j k stream, Active s j stream → Mover s k stream → j ≤ k
  behind : ∀ e ∈ s.log, e.op < s.started ∧ ∀ k, Mover s k e.stream → e.op ≤ k
  inOrder : InOrder s.log
  overtaken : ∀ e ∈ s.log, e.overtaken = []

/-- What holds of the sockets holds of them after a step too. -/
abbrev Carries (s s' : Sockets) (p : Sockets → Prop) : Prop := p s → p s'

/-- A step that moves no bytes: who may move some could before or has just started, and who becomes
active is the first of its stream. -/
theorem Inv.carry (hi : Inv s) (hlog : s'.log = s.log) (hstarted : s.started ≤ s'.started)
    (hsorted : (s'.asyncs.map Async.op).Pairwise (· < ·))
    (hapart : (s'.trying.map Try.op).Nodup ∧ (s'.calls.map Call.op).Nodup)
    (hknown : ∀ k, Carries s s' fun s =>
      s.started ≤ k → s.async k = none ∧ s.client k = none ∧ s.caller k = none)
    (htokens : ∀ j k, Carries s s' fun s =>
      ∀ t a, s.client j = some t → s.async k = some a → a.id = t.token → k = j)
    (hstreams : ∀ k, Carries s s' fun s => ∀ t a, s.client k = some t → s.async k = some a → a.stream = t.stream)
    (hrunning : ∀ k, Carries s s' fun s =>
      ∀ a, s.async k = some a → a.state = .running → ∃ c, s.caller k = some c ∧ c.apcId = a.apcId)
    (hcalled : ∀ k, Carries s s' fun s => ∀ c, s.caller k = some c → c.apcId ≠ 0 ∧ ∃ a, s.async k = some a ∧
      a.state = .running ∧ a.sock = c.sock ∧ a.stream = c.stream ∧ a.kind = c.kind)
    (hapcs : ∀ j k, Carries s s' fun s =>
      ∀ c c', s.caller j = some c → s.caller k = some c' → c.apcId = c'.apcId → j = k)
    (htold : ∀ k, Carries s s' fun s => (∀ a, s.async k = some a → a.kind = .io → a.status ≠ .pending) ∧
      ∀ c, s.caller k = some c → c.kind = .io → c.status ≠ .pending)
    (hmover : ∀ k stream, Mover s' k stream → Mover s k stream ∨ s.started ≤ k)
    (hactive : ∀ j stream, Active s' j stream →
      Active s j stream ∨ (j < s.started ∧ ∀ k, Mover s k stream → j ≤ k)) : Inv s' := by
  have hlt : ∀ j stream, Active s j stream → j < s.started := by
    intro j stream hj
    by_contra hle
    have hnone := hi.known j (Nat.le_of_not_lt hle)
    simp [Active, hnone] at hj
  refine ⟨hsorted, hapart, fun k => hknown k (hi.known k),
    fun j k => htokens j k (hi.tokens j k), fun k => hstreams k (hi.streams k), fun k => hrunning k (hi.running k),
    fun k => hcalled k (hi.called k), fun j k => hapcs j k (hi.apcs j k), fun k => htold k (hi.told k), fun j k stream hj hk => ?_,
    fun e he => ?_, hlog ▸ hi.inOrder, hlog ▸ hi.overtaken⟩
  · rcases hactive j stream hj with hj | ⟨hj, hfirst⟩ <;> rcases hmover k stream hk with hk | hk
    · exact hi.first j k stream hj hk
    · exact Nat.le_of_lt (Nat.lt_of_lt_of_le (hlt j stream hj) hk)
    · exact hfirst k hk
    · omega
  · rw [hlog] at he
    obtain ⟨hlt, hbehind⟩ := hi.behind e he
    refine ⟨by omega, fun k hk => ?_⟩
    rcases hmover k e.stream hk with hk | hk
    · exact hbehind k hk
    · omega

theorem Inv.mem_async (hi : Inv s) : s.async op = some a ↔ a ∈ s.asyncs ∧ a.op = op :=
  row_eq_some (hi.sorted.imp Nat.ne_of_lt)

theorem Inv.mem_client (hi : Inv s) : s.client op = some t ↔ t ∈ s.trying ∧ t.op = op :=
  row_eq_some hi.apart.1

theorem Inv.mem_caller (hi : Inv s) : s.caller op = some c ↔ c ∈ s.calls ∧ c.op = op :=
  row_eq_some hi.apart.2

theorem Inv.first_iff (hi : Inv s) : First s op stream ↔ ∀ k, Mover s k stream → op ≤ k := by
  unfold First Mover
  simp only [hi.mem_async, hi.mem_client, hi.mem_caller]
  grind

theorem op_unique (hops : list.Pairwise (·.op < ·.op)) (ha : a ∈ list) (hb : b ∈ list) (heq : a.op = b.op) :
    a = b := by
  induction list with
  | nil => cases ha
  | cons x list ih =>
    obtain ⟨hx, hrest⟩ := pairwise_cons.mp hops
    rcases mem_cons.mp ha with rfl | ha'
    · rcases mem_cons.mp hb with rfl | hb'
      · rfl
      · exact absurd (hx b hb') (by omega)
    · rcases mem_cons.mp hb with rfl | hb'
      · exact absurd (hx a ha') (by omega)
      · exact ih hrest ha' hb'

theorem Inv.async_lt (hi : Inv s) : ∀ a ∈ s.asyncs, a.op < s.started := by
  intro a ha
  by_contra hle
  have hnone := (hi.known a.op (Nat.le_of_not_lt hle)).1
  cases hnone.symm.trans (hi.mem_async.mpr ⟨ha, rfl⟩)

theorem Inv.client_lt (hi : Inv s) : ∀ t ∈ s.trying, t.op < s.started := by
  intro t ht
  by_contra hle
  have hnone := (hi.known t.op (Nat.le_of_not_lt hle)).2.1
  cases hnone.symm.trans (hi.mem_client.mpr ⟨ht, rfl⟩)

theorem Inv.caller_lt (hi : Inv s) : ∀ c ∈ s.calls, c.op < s.started := by
  intro c hc
  by_contra hle
  have hnone := (hi.known c.op (Nat.le_of_not_lt hle)).2.2
  cases hnone.symm.trans (hi.mem_caller.mpr ⟨hc, rfl⟩)

theorem Inv.idle (hi : Inv s) (ha : s.async op = some a) (hstate : a.state ≠ .running) : s.caller op = none := by
  by_contra hne
  obtain ⟨c, hc⟩ := Option.ne_none_iff_exists'.mp hne
  obtain ⟨-, b, hb, hrunning, -⟩ := hi.called op c hc
  cases ha.symm.trans hb
  exact hstate hrunning

theorem row_asyncSet {f : Async → Async} (hf : ∀ a, (f a).op = a.op) (ha : row Async.op list op = some a) (k : Nat) :
    row Async.op (asyncSet list op f) k = if k = op then some (f a) else row Async.op list k :=
  row_set hf ha k

theorem map_asyncSet (list : List Async) (op : Nat) {f : Async → Async} (hf : ∀ a, (f a).op = a.op) :
    (asyncSet list op f).map Async.op = list.map Async.op := map_set Async.op list hf op

theorem row_asyncRemove (k : Nat) :
    row Async.op (asyncRemove list op) k = if k = op then none else row Async.op list k := row_filter _ _ op k

theorem Inv.begin (hi : Inv s) (new : Option Async) (client : Option Try) (next : BitVec 32)
    (hnew : ∀ a ∈ new, a.op = s.started ∧ (a.state = .direct ∨ a.state = .queued) ∧ a.status = .alerted ∧
      ∀ t ∈ s.trying, t.token ≠ a.id)
    (hclient : ∀ t ∈ client, t.op = s.started ∧ (∀ a ∈ s.asyncs, a.id ≠ t.token) ∧
      ∀ a ∈ new, a.stream = t.stream) :
    Inv { s with
      asyncs := s.asyncs ++ new.toList
      trying := s.trying ++ client.toList
      nextId := next
      started := s.started + 1 } := by
  obtain ⟨hnoasync, hnoclient, hnocaller⟩ := hi.known s.started (Nat.le_refl _)
  have hasync := row_append new (fun a ha => (hnew a ha).1) hnoasync
  have hclients := row_append client (fun t ht => (hclient t ht).1) hnoclient
  have hids : ∀ k a, s.async k = some a → a.op = k ∧ ∀ t ∈ client, a.id ≠ t.token := fun k a ha =>
    ⟨(row_mem ha).2, fun t ht => (hclient t ht).2.1 a (row_mem ha).1⟩
  have htokens : ∀ k t, s.client k = some t → t.op = k ∧ ∀ a ∈ new, t.token ≠ a.id := fun k t ht =>
    ⟨(row_mem ht).2, fun a ha => (hnew a ha).2.2.2 t (row_mem ht).1⟩
  refine hi.carry rfl (Nat.le_succ _) ?_ ?_ ?_ ?_ ?_ ?_ ?_ ?_ ?_ ?_ ?_
  · cases new with
    | none => simpa using hi.sorted
    | some a => simpa [pairwise_append, hi.sorted, (hnew a rfl).1] using hi.async_lt
  · cases client with
    | none => simpa using hi.apart
    | some t => simpa [nodup_append, hi.apart, (hclient t rfl).1] using fun t ht => Nat.ne_of_lt (hi.client_lt t ht)
  all_goals grind [Mover, Active]

theorem Inv.start (hi : Inv s) (tid sock socket : Nat) (direction : Direction) (iosb : Nat) (force memory : Bool)
    (hunused : Unused s (if memory then newId s.nextId else 1)) :
    Inv (s.step (.start tid sock socket direction iosb force memory)) := by
  obtain ⟨hids, htokens⟩ := hunused
  cases memory with
  | true =>
    exact hi.begin (some
      { op := s.started, socket, id := newId s.nextId, ownerTid := tid, sock, direction, iosb, kind := .io })
      (some { op := s.started, token := newId s.nextId, stream := ⟨socket, direction⟩, force }) (newId s.nextId)
      (by simpa using htokens) (by simpa [Async.stream] using hids)
  | false =>
    have := hi.begin none (some { op := s.started, token := 1, stream := ⟨socket, direction⟩, force }) s.nextId
      (by simp) (by simpa using hids)
    rw [Option.toList_none, append_nil] at this
    exact this

theorem Inv.accept (hi : Inv s) (tid sock socket iosb : Nat) (into : Option Nat)
    (hunused : Unused s (newId s.nextId)) : Inv (s.step (.accept tid sock socket iosb into)) := by
  have := hi.begin (some
    { op := s.started, socket, id := newId s.nextId, ownerTid := tid, sock, direction := .read, iosb,
      state := .queued, pending := true, kind := into.elim .accept .acceptInto }) none (newId s.nextId)
    (by simpa using hunused.2) (by simp)
  rw [Option.toList_none, append_nil] at this
  exact this

theorem Inv.move (hi : Inv s) (hop : Mover s op stream) (hlt : op < s.started) (bytes : Nat)
    (hfirst : bytes ≠ 0 → First s op stream) : Inv (s.move op stream bytes) := by
  unfold Sockets.move
  split
  · exact hi
  rename_i hbytes
  replace hfirst := hfirst hbytes
  refine { hi with behind := fun e he => ?_, inOrder := ?_, overtaken := fun e he => ?_ }
  · rcases mem_cons.mp he with rfl | he
    · exact ⟨hlt, hi.first_iff.mp hfirst⟩
    · exact hi.behind e he
  · refine pairwise_cons.mpr ⟨fun e he hsame => ?_, hi.inOrder⟩
    exact (hi.behind e he).2 op (hsame ▸ hop)
  · rcases mem_cons.mp he with rfl | he
    · -- whatever waits on the stream was not started before
      simp only [Sockets.overtaken, map_eq_nil_iff, filter_eq_nil_iff, decide_eq_true_eq]
      rintro a ha ⟨hwait, hsame, hlt⟩
      have := hfirst.2.1 a ha hwait hsame
      omega
    · exact hi.overtaken e he

theorem move_fields (s : Sockets) (op : Nat) (stream : Stream) (bytes : Nat) :
    (s.move op stream bytes).trying = s.trying ∧ (s.move op stream bytes).calls = s.calls := by
  unfold Sockets.move
  split <;> exact ⟨rfl, rfl⟩

theorem Inv.attempt (hi : Inv s) (op bytes : Nat) (blocked : Bool)
    (hturn : bytes ≠ 0 → ∀ t ∈ s.trying, t.op = op → First s op t.stream) :
    Inv (s.step (.attempt op bytes blocked)) := by
  simp only [Sockets.step]
  split
  · exact hi
  rename_i t hfind
  have hmem := mem_of_find?_eq_some hfind
  obtain ⟨hop, hout⟩ : t.op = op ∧ t.outcome = none := by simpa using List.find?_some hfind
  have ht := hi.mem_client.mpr ⟨hmem, hop⟩
  have hi1 := hi.move (.inl ⟨t, ht, .inl hout, rfl⟩) (hop ▸ hi.client_lt t hmem) bytes fun hb => hturn hb t hmem hop
  rw [Sockets.client, ← (move_fields s op t.stream bytes).1] at ht
  generalize s.move op t.stream bytes = s1 at *
  -- the one client that tried had not before
  have hclients := row_set (f := fun t => { t with outcome := some blocked }) (fun _ => rfl) ht
  refine hi1.carry rfl (Nat.le_refl _) hi1.sorted ⟨?_, hi1.apart.2⟩ ?_ ?_ ?_ ?_ ?_ ?_ ?_ ?_ ?_
  · have hkeys := map_set Try.op s1.trying (f := fun t => { t with outcome := some blocked })
      (fun _ => rfl) op
    exact hkeys ▸ hi1.apart.1
  all_goals grind [Mover, Active, Try.mayMove]

theorem Inv.call (hi : Inv s) (op bytes : Nat) (blocked : Bool) : Inv (s.step (.call op bytes blocked)) := by
  simp only [Sockets.step]
  split
  · exact hi
  rename_i c hfind
  have hmem := mem_of_find?_eq_some hfind
  obtain ⟨hop, hkind, hstatus, hout⟩ : c.op = op ∧ c.kind = .io ∧ c.status = .alerted ∧ c.outcome = none := by
    simpa using List.find?_some hfind
  have hc := hi.mem_caller.mpr ⟨hmem, hop⟩
  have hfirst : First s op c.stream :=
    hi.first_iff.mpr fun k => hi.first op k c.stream (.inr ⟨c, hc, hkind, hstatus, hout, rfl⟩)
  have hi1 := hi.move (.inr (.inr ⟨c, hc, ⟨hkind, hstatus, by simp [hout]⟩, rfl⟩)) (hop ▸ hi.caller_lt c hmem) bytes
    fun _ => hfirst
  rw [Sockets.caller, ← (move_fields s op c.stream bytes).2] at hc
  generalize s.move op c.stream bytes = s1 at *
  have hcallers := row_set (f := fun c => { c with outcome := some blocked }) (fun _ => rfl) hc
  refine hi1.carry rfl (Nat.le_refl _) hi1.sorted ⟨hi1.apart.1, ?_⟩ ?_ ?_ ?_ ?_ ?_ ?_ ?_ ?_ ?_
  · have hkeys := map_set Call.op s1.calls (f := fun c => { c with outcome := some blocked })
      (fun _ => rfl) op
    exact hkeys ▸ hi1.apart.2
  all_goals grind [Mover, Active, Call.mayMove]

/-- Operations that wait are made ready; those that are to be done now are the first of their streams. -/
theorem Inv.rework (hi : Inv s) (g : Async → Async)
    (hg : ∀ a ∈ s.asyncs, g a = a ∨ ((a.state = .queued ∨ a.state = .ready) ∧ ∃ status now,
      g a = a.makeReady status now ∧ (a.kind = .io → status ≠ .pending ∧
        (status = .alerted → a.state = .queued ∧ First s a.op a.stream)))) :
    Inv { s with asyncs := s.asyncs.map g } := by
  have hop : ∀ a ∈ s.asyncs, (g a).op = a.op := by
    intro a ha
    rcases hg a ha with heq | ⟨-, status, now, heq, -⟩ <;> simp [heq, Async.makeReady]
  have hkeys : (s.asyncs.map g).map Async.op = s.asyncs.map Async.op := by
    rw [map_map]
    exact map_congr_left hop
  have hasync : ∀ k, (s.async k = none ∧ row Async.op (s.asyncs.map g) k = none) ∨
      ∃ a, s.async k = some a ∧ row Async.op (s.asyncs.map g) k = some (g a) ∧ a.op = k ∧ (g a = a ∨
        ((a.state = .queued ∨ a.state = .ready) ∧ ∃ status now, g a = a.makeReady status now ∧
          (a.kind = .io → status ≠ .pending ∧
            (status = .alerted → a.state = .queued ∧ ∀ m, Mover s m a.stream → k ≤ m)))) := by
    intro k
    rw [row_map hop]
    cases hrow : s.async k with
    | none => exact .inl ⟨rfl, by simp [hrow]⟩
    | some a =>
      obtain ⟨ha, rfl⟩ := row_mem hrow
      have hga := hg a ha
      simp only [hi.first_iff] at hga
      exact .inr ⟨a, rfl, by simp [hrow], rfl, hga⟩
  have hknown := hi.known
  refine hi.carry rfl (Nat.le_refl _) (hkeys ▸ hi.sorted) hi.apart ?_ ?_ ?_ ?_ ?_ ?_ ?_ ?_ ?_
  all_goals grind [Mover, Active, Async.makeReady, Async.waiting, Async.stream]

theorem Inv.cancel (hi : Inv s) (sock iosb tid : Nat) (now : UInt64) (closing : Bool) :
    Inv (s.step (.cancel sock iosb tid now closing)) := by
  refine hi.rework _ fun a _ => ?_
  split
  · rename_i hc
    refine .inr ⟨hc.2.2.2, _, now, rfl, fun _ => ?_⟩
    split <;> simp
  · exact .inl rfl

theorem Inv.finish (hi : Inv s) {trying : List Try} {calls : List Call}
    (hclients : ∀ k, row Try.op trying k = none ∨ row Try.op trying k = s.client k)
    (hcallers : ∀ k, row Call.op calls k = if k = op then none else s.caller k)
    (hapart : (trying.map Try.op).Nodup ∧ (calls.map Call.op).Nodup) :
    Inv { s with asyncs := asyncRemove s.asyncs op, trying, calls } := by
  have hasync := @row_asyncRemove s.asyncs op
  refine hi.carry rfl (Nat.le_refl _) (hi.sorted.sublist (map_filter_sublist _)) hapart ?_ ?_ ?_ ?_ ?_ ?_ ?_ ?_ ?_
  all_goals grind [Mover, Active]

theorem Inv.requeue (hi : Inv s) (ha : s.async op = some a) {trying : List Try} {calls : List Call}
    (hclients : ∀ k, row Try.op trying k = none ∨ row Try.op trying k = s.client k)
    (hcallers : ∀ k, row Call.op calls k = if k = op then none else s.caller k)
    (hapart : (trying.map Try.op).Nodup ∧ (calls.map Call.op).Nodup) (f : Async → Async)
    (hf : ∀ b, (f b).op = b.op ∧ b.id = (f b).id ∧ b.stream = (f b).stream ∧ b.kind = (f b).kind)
    (hqueued : (f a).state = .queued) (hstatus : a.kind = .io → (f a).status ≠ .pending)
    (hmover : a.kind = .io → Mover s op a.stream) :
    Inv { s with asyncs := asyncSet s.asyncs op f, trying, calls } := by
  have hasync := row_asyncSet (fun b => (hf b).1) ha
  have hkeys := map_asyncSet s.asyncs op fun b => (hf b).1
  have hfa := hf a
  refine hi.carry rfl (Nat.le_refl _) (hkeys ▸ hi.sorted) hapart ?_ ?_ ?_ ?_ ?_ ?_ ?_ ?_ ?_
  all_goals grind [Mover, Active, Async.waiting]

theorem find_id {id : BitVec 32} (hfind : asyncFindId list id = some a) : a ∈ list ∧ a.id = id := by
  unfold asyncFindId at hfind
  split at hfind
  · cases hfind
  · exact ⟨mem_of_find?_eq_some hfind, by simpa using List.find?_some hfind⟩

theorem Inv.directResult (hi : Inv s) (op code : Nat) : Inv (s.step (.directResult op code)) := by
  simp only [Sockets.step]
  split
  · exact hi
  rename_i t hfind
  have hmem := mem_of_find?_eq_some hfind
  have hclients := row_filter Try.op s.trying op
  have hapart : ((s.trying.filter fun t => t.op ≠ op).map Try.op).Nodup ∧ (s.calls.map Call.op).Nodup :=
    ⟨hi.apart.1.sublist (map_filter_sublist _), hi.apart.2⟩
  have hforget : Inv { s with trying := s.trying.filter (·.op ≠ op) } := by
    refine hi.carry rfl (Nat.le_refl _) hi.sorted hapart ?_ ?_ ?_ ?_ ?_ ?_ ?_ ?_ ?_
    all_goals grind [Mover, Active]
  unfold setAsyncDirectResult
  split
  · exact hforget
  rename_i a hid
  obtain ⟨ha, hid⟩ := find_id hid
  have hrow := hi.mem_async.mpr ⟨ha, rfl⟩
  have ht := hi.mem_client.mpr ⟨hmem, rfl⟩
  have hop := hi.tokens t.op a.op t a ht hrow hid
  split
  · rename_i hdirect
    have hcallers : ∀ k, s.caller k = if k = a.op then none else s.caller k := by
      have hidle := hi.idle hrow (by simp [hdirect])
      grind
    split
    · rename_i hpending
      -- it blocked, and waits now as its client was ready to do before
      have hmay : t.mayMove := by
        unfold Try.reported at hpending
        split at hpending
        · rename_i hcase
          exact .inr hcase
        · cases hpending
      refine hi.requeue hrow (by grind) hcallers hapart _ (fun _ => ⟨rfl, rfl, rfl, rfl⟩) rfl ((hi.told a.op).1 a hrow)
        fun _ => .inl ⟨t, hop ▸ ht, hmay, (hi.streams t.op t a ht (hop ▸ hrow)).symm⟩
    · exact hi.finish (by grind) hcallers hapart
  · exact hforget

theorem Inv.find_call (hi : Inv s) (hc : s.caller op = some c) (ha : s.async op = some a)
    (hstate : a.state = .running) : asyncFindApc s.asyncs c.apcId = some a := by
  obtain ⟨c', hc', hid⟩ := hi.running op a ha hstate
  cases hc.symm.trans hc'
  unfold asyncFindApc
  rw [if_neg (hi.called op c hc).1]
  cases hfind : s.asyncs.find? fun a => decide (a.state = .running ∧ a.apcId = c.apcId) with
  | none => exact absurd (List.find?_eq_none.mp hfind a (row_mem ha).1) (by simp [hstate, hid])
  | some b =>
    obtain ⟨hbstate, hbid⟩ : b.state = .running ∧ b.apcId = c.apcId := by simpa using List.find?_some hfind
    have hb := hi.mem_async.mpr ⟨mem_of_find?_eq_some hfind, rfl⟩
    obtain ⟨c', hc', hid'⟩ := hi.running b.op b hb hbstate
    have heq := hi.apcs b.op op c' c hc' hc (hid'.trans hbid)
    rw [heq, ha] at hb
    exact hb.symm

theorem Inv.callResult (hi : Inv s) (op code : Nat) : Inv (s.step (.callResult op code)) := by
  simp only [Sockets.step]
  split
  · exact hi
  rename_i c hfind
  have hc : s.caller op = some c := hfind
  obtain ⟨-, a, ha, hstate, -, hstream, hkind⟩ := hi.called op c hc
  have hapart : (s.trying.map Try.op).Nodup ∧ ((s.calls.filter fun c => c.op ≠ op).map Call.op).Nodup :=
    ⟨hi.apart.1, hi.apart.2.sublist (map_filter_sublist _)⟩
  simp only [asyncResult, hi.find_call hc ha hstate, (row_mem ha).2]
  split
  · rename_i hpending
    refine hi.requeue ha (fun _ => .inr rfl) (row_filter _ _ op) hapart _ (fun _ => ⟨rfl, rfl, rfl, rfl⟩) rfl
      (fun _ => by simp) fun hio => ?_
    -- an APC that has something to do comes back only if it blocked
    have hmay : c.mayMove := by
      have htold := (hi.told op).2 c hc (hkind ▸ hio)
      unfold Call.reported at hpending
      split at hpending
      · exact absurd hpending htold
      · rename_i hstatus
        split at hpending
        · rename_i hout
          exact ⟨hout.1, not_not.mp hstatus, by simp [hout.2]⟩
        · cases hpending
    exact .inr (.inr ⟨c, hc, hmay, hstream.symm⟩)
  · exact hi.finish (fun _ => .inr rfl) (row_filter _ _ op) hapart

theorem ready_for {tid : Nat} (hready : asyncReadyFor list tid now = some a) :
    a ∈ list ∧ a.state = .ready := by
  rcases Option.or_eq_some_iff.mp hready with hfind | ⟨-, hfind⟩
  all_goals
    have hp := List.find?_some hfind
    simp only [decide_eq_true_eq] at hp
    exact ⟨mem_of_find?_eq_some hfind, hp.1⟩

theorem newId_ne_zero (last : BitVec 32) : newId last ≠ 0 := by
  unfold newId
  split
  · decide
  · assumption

theorem Inv.handOver (hi : Inv s) (tid : Nat) (now : UInt64) (hunused : ∀ c ∈ s.calls, c.apcId ≠ newId s.apcIds) :
    Inv (s.step (.handOver tid now)) := by
  simp only [Sockets.step]
  split
  · exact hi
  rename_i a hready
  obtain ⟨hmem, hstate⟩ := ready_for hready
  have ha := hi.mem_async.mpr ⟨hmem, rfl⟩
  have hnew : ∀ k c, s.caller k = some c → c.apcId ≠ newId s.apcIds := fun k c hc => hunused c (row_mem hc).1
  -- whoever runs already is not the one that was ready
  have hnone := hi.idle ha (by simp [hstate])
  have hasync := row_asyncSet (f := fun a => { a with state := .running, apcId := newId s.apcIds }) (fun _ => rfl) ha
  have hcallers := row_append (some ⟨a.op, newId s.apcIds, a.stream, a.sock, a.kind, a.status, none⟩)
    (fun c hc => by cases hc; rfl) hnone
  have hid := newId_ne_zero s.apcIds
  have htold := (hi.told a.op).1
  rw [Option.toList_some] at hcallers
  refine hi.carry rfl (Nat.le_refl _) ?_ ⟨hi.apart.1, ?_⟩ ?_ ?_ ?_ ?_ ?_ ?_ ?_ ?_ ?_
  · have hkeys := map_asyncSet s.asyncs a.op (f := fun a => { a with state := .running, apcId := newId s.apcIds })
      fun _ => rfl
    exact hkeys ▸ hi.sorted
  · have hnot : ∀ c ∈ s.calls, c.op ≠ a.op := fun c hc heq => by
      cases hnone.symm.trans (hi.mem_caller.mpr ⟨hc, heq⟩)
    simpa [nodup_append, hi.apart] using hnot
  all_goals grind [Mover, Active, Async.waiting, Call.mayMove, Async.stream]

/-- What `next_queued` finds: the first of its handle and direction that is not being tried, if
that one waits. -/
theorem next_queued_iff (hops : list.Pairwise (·.op < ·.op)) :
    asyncNextQueued sock direction list = some a ↔
      a ∈ list ∧ a.sock = sock ∧ a.direction = direction ∧ a.state = .queued ∧
        ∀ b ∈ list, b.op < a.op → b.sock = sock → b.direction = direction → b.state = .direct := by
  induction list with
  | nil => simp [asyncNextQueued]
  | cons x list ih =>
    obtain ⟨hx, hrest⟩ := pairwise_cons.mp hops
    -- one that the walk passes changes nothing
    have hpass : (x.sock = sock → x.direction = direction → x.state = .direct) →
        (asyncNextQueued sock direction list = some a ↔
          a ∈ x :: list ∧ a.sock = sock ∧ a.direction = direction ∧ a.state = .queued ∧
            ∀ b ∈ x :: list, b.op < a.op → b.sock = sock → b.direction = direction → b.state = .direct) := by
      intro hdirect
      rw [ih hrest]
      constructor
      · rintro ⟨ha, hs, hd, hq, hb⟩
        refine ⟨mem_cons_of_mem _ ha, hs, hd, hq, fun b hmem hlt hbs hbd => ?_⟩
        rcases mem_cons.mp hmem with rfl | hmem
        · exact hdirect hbs hbd
        · exact hb b hmem hlt hbs hbd
      · rintro ⟨ha, hs, hd, hq, hb⟩
        rcases mem_cons.mp ha with rfl | ha
        · rw [hdirect hs hd] at hq
          cases hq
        · exact ⟨ha, hs, hd, hq, fun b hmem => hb b (mem_cons_of_mem _ hmem)⟩
    -- and one that it stops at is the only candidate
    have hstop : x.sock = sock → x.direction = direction → x.state ≠ .direct →
        ((a ∈ x :: list ∧ a.sock = sock ∧ a.direction = direction ∧ a.state = .queued ∧
          ∀ b ∈ x :: list, b.op < a.op → b.sock = sock → b.direction = direction → b.state = .direct) ↔
          a = x ∧ x.state = .queued) := by
      intro hs hd hne
      constructor
      · rintro ⟨ha, -, -, hq, hb⟩
        rcases mem_cons.mp ha with rfl | ha
        · exact ⟨rfl, hq⟩
        · exact absurd (hb x mem_cons_self (hx a ha) hs hd) hne
      · rintro ⟨rfl, hq⟩
        refine ⟨mem_cons_self, hs, hd, hq, fun b hmem hlt => ?_⟩
        rcases mem_cons.mp hmem with rfl | hmem
        · exact absurd hlt (Nat.lt_irrefl _)
        · exact absurd hlt (Nat.lt_asymm (hx b hmem))
    unfold asyncNextQueued
    split
    · rename_i hmiss
      exact hpass fun hs hd => absurd hmiss (by simp [hs, hd])
    · rename_i hhit
      obtain ⟨hs, hd⟩ : x.sock = sock ∧ x.direction = direction := by simpa using hhit
      cases hstate : x.state with
      | direct => exact hpass fun _ _ => hstate
      | queued =>
        rw [hstop hs hd (by simp [hstate])]
        simp [hstate, eq_comm]
      | ready | running =>
        rw [hstop hs hd (by simp [hstate])]
        simp [hstate]

/-- What a look of the poller does to one operation of the list it began with. -/
def Looked (list : List Async) (watch : Nat → Option Polled) (a a' : Async) : Prop :=
  a' = a ∨ (a.state = .queued ∧ ∃ status now, a' = a.makeReady status now ∧
    (a.kind = .io → status = .alerted ∧ asyncNextQueued a.sock a.direction list = some a ∧
      (watch a.sock).any (·.ready a.direction) = true))

theorem Looked.same (h : Looked list watch a b) :
    b.op = a.op ∧ b.id = a.id ∧ b.sock = a.sock ∧ b.direction = a.direction ∧ b.stream = a.stream := by
  rcases h with rfl | ⟨-, status, now, rfl, -⟩ <;> exact ⟨rfl, rfl, rfl, rfl, rfl⟩

theorem Looked.untouched (h : Looked list watch a b) (hready : b.state ≠ .ready) : b = a := by
  rcases h with heq | ⟨-, status, now, rfl, -⟩
  · exact heq
  · exact absurd rfl hready

/-- What looks of the poller do to the list it began with. -/
def Looks (list : List Async) (watch : Nat → Option Polled) (list' : List Async) : Prop :=
  ∃ g : Async → Async, list' = list.map g ∧ ∀ a ∈ list, Looked list watch a (g a)

theorem Looks.look (hops : list.Pairwise (·.op < ·.op)) (hlooks : Looks list watch list') {polled : Polled}
    (hwatch : watch sock = some polled) (now : UInt64) (direction : Direction) :
    Looks list watch (pollDirection list' sock polled now direction) := by
  obtain ⟨g, rfl, hg⟩ := hlooks
  have hsame := fun a ha => (hg a ha).same
  have hsorted : (list.map g).Pairwise (·.op < ·.op) :=
    pairwise_map.mpr (hops.imp_of_mem fun ha hb hlt => by rwa [(hsame _ ha).1, (hsame _ hb).1])
  unfold pollDirection
  split
  · exact ⟨g, rfl, hg⟩
  rename_i x hnext
  split
  case isFalse => exact ⟨g, rfl, hg⟩
  rename_i hready
  obtain ⟨hx, hsock, hdir, hqueued, hbefore⟩ := (next_queued_iff hsorted).mp hnext
  obtain ⟨a, ha, rfl⟩ := mem_map.mp hx
  have hself := (hg a ha).untouched (by simp [hqueued])
  rw [hself] at hnext hsock hdir hqueued hbefore ⊢
  -- it is the one to find in the list the poller began with, too
  have hfirst : asyncNextQueued a.sock a.direction list = some a := by
    refine (next_queued_iff hops).mpr ⟨ha, rfl, rfl, hqueued, fun b hb hlt hbs hbd => ?_⟩
    obtain ⟨hop, -, hs, hd, -⟩ := hsame b hb
    have hdirect := hbefore (g b) (mem_map_of_mem hb) (hop ▸ hlt) (hs.trans (hbs.trans hsock))
      (hd.trans (hbd.trans hdir))
    rw [← (hg b hb).untouched (by simp [hdirect])]
    exact hdirect
  have hset : ∀ status, (a.kind = .io → status = .alerted) →
      Looks list watch (asyncSet (list.map g) a.op (Async.makeReady status now)) := by
    intro status hio
    refine ⟨_, map_map, fun b hb => ?_⟩
    dsimp only [Function.comp_apply]
    split
    · rename_i hop
      cases op_unique hops hb ha ((hsame b hb).1.symm.trans hop)
      rw [hself]
      exact .inr ⟨hqueued, status, now, rfl, fun hk => ⟨hio hk, hfirst, by simp [hsock, hwatch, hdir, hready]⟩⟩
    · exact hg b hb
  split
  · exact hset .alerted fun _ => rfl
  · rename_i hkind
    split
    · exact hset _ fun hk => absurd hk hkind
    · exact ⟨g, rfl, hg⟩

theorem poll_looks (hops : list.Pairwise (·.op < ·.op)) (watch : Nat → Option Polled) (now : UInt64) :
    Looks list watch (pollAllAsyncs list watch now) := by
  refine List.foldlRecOn _ _ ⟨id, by simp, fun a _ => .inl rfl⟩ ?_
  intro list' hlooks sock _
  cases hwatch : watch sock with
  | none => exact hlooks
  | some polled =>
    have hread := hlooks.look hops hwatch now .read
    exact hread.look hops hwatch now .write

theorem Inv.poll (hi : Inv s) (now : UInt64) (watch : Nat → Option Polled)
    (hturn : ∀ a ∈ s.asyncs, a.kind = .io → asyncNextQueued a.sock a.direction s.asyncs = some a →
      (watch a.sock).any (·.ready a.direction) → FirstElsewhere s a) : Inv (s.step (.poll now watch)) := by
  have hops := pairwise_map.mp hi.sorted
  -- of the operations under its own handle, the poller picks the first itself
  have hfirst : ∀ a ∈ s.asyncs, a.kind = .io → asyncNextQueued a.sock a.direction s.asyncs = some a →
      (watch a.sock).any (·.ready a.direction) = true → First s a.op a.stream := by
    intro a ha hkind hnext hready
    obtain ⟨htry, hwait, hcall⟩ := hturn a ha hkind hnext hready
    obtain ⟨-, -, -, -, hbefore⟩ := (next_queued_iff hops).mp hnext
    refine ⟨htry, fun b hb hbw hstream => ?_, fun c hc hcm hstream => ?_⟩
    · by_cases hsock : b.sock = a.sock
      · refine Nat.le_of_not_lt fun hlt => ?_
        have hdirect := hbefore b hb hlt hsock (congrArg Stream.direction hstream)
        rcases hbw.2 with h | ⟨h, -⟩ <;> simp [hdirect] at h
      · exact hwait b hb hbw hstream hsock
    · by_cases hsock : c.sock = a.sock
      · obtain ⟨-, b, hb, hrun, hbsock, hbstream, -⟩ := hi.called c.op c (hi.mem_caller.mpr ⟨hc, rfl⟩)
        obtain ⟨hb, hop⟩ := row_mem hb
        refine Nat.le_of_not_lt fun hlt => ?_
        have hdirect := hbefore b hb (hop ▸ hlt) (hbsock.trans hsock)
          (congrArg Stream.direction (hbstream.trans hstream))
        simp [hdirect] at hrun
      · exact hcall c hc hcm hstream hsock
  obtain ⟨g, heq, hg⟩ := poll_looks hops watch now
  simp only [Sockets.step, heq]
  refine hi.rework g fun a ha => (hg a ha).imp_right fun ⟨hqueued, status, now, hmade, hio⟩ => ?_
  refine ⟨.inl hqueued, status, now, hmade, fun hkind => ?_⟩
  obtain ⟨rfl, hnext, hpolled⟩ := hio hkind
  exact ⟨by simp, fun _ => ⟨hqueued, hfirst a ha hkind hnext hpolled⟩⟩

theorem Inv.step (hi : Inv s) (label : Label) (hturn : InTurn s label) : Inv (s.step label) := by
  cases label with
  | start tid sock socket direction iosb force memory =>
    exact hi.start tid sock socket direction iosb force memory hturn
  | accept tid sock socket iosb into => exact hi.accept tid sock socket iosb into hturn
  | attempt op bytes blocked => exact hi.attempt op bytes blocked hturn
  | directResult op code => exact hi.directResult op code
  | poll now watch => exact hi.poll now watch hturn
  | handOver tid now => exact hi.handOver tid now hturn
  | call op bytes blocked => exact hi.call op bytes blocked
  | callResult op code => exact hi.callResult op code
  | cancel sock iosb tid now closing => exact hi.cancel sock iosb tid now closing

theorem initial_inv : Inv {} := by
  have hnone : ∀ k, Sockets.async {} k = none ∧ Sockets.client {} k = none ∧ Sockets.caller {} k = none :=
    fun _ => ⟨rfl, rfl, rfl⟩
  constructor
  all_goals simp [Active, InOrder, hnone]

/-- In a run whose direct tries and polls come in turn, the bytes of a stream are moved in the
order the operations were started, and none passes one that waits. -/
theorem socket_operations_in_order (labels : List Label) (hturn : Allowed InTurn Sockets.step {} labels) :
    InOrder (run Sockets.step {} labels).log ∧ ∀ e ∈ (run Sockets.step {} labels).log, e.overtaken = [] := by
  have hi : Inv (run Sockets.step {} labels) :=
    run_allowed (P := Inv) (fun s label hok hi => hi.step label hok) initial_inv labels hturn
  exact ⟨hi.inOrder, hi.overtaken⟩

/-- Two receives that block, and the data for both comes later. -/
def twoReceives : List Label :=
  [.start 1 5 9 .read 100 true true, .attempt 0 0 true, .directResult 0 0,
    .start 1 5 9 .read 200 true true, .attempt 1 0 true, .directResult 1 0,
    .poll 10 fun _ => some { ready := fun _ => true }, .handOver 1 11, .call 0 64 false, .callResult 0 0,
    .poll 20 fun _ => some { ready := fun _ => true }, .handOver 1 21, .call 1 32 false, .callResult 1 0]

theorem socket_operations_in_order_two_receives :
    Allowed InTurn Sockets.step {} twoReceives ∧
      (run Sockets.step {} twoReceives).log = [⟨1, ⟨9, .read⟩, 32, []⟩, ⟨0, ⟨9, .read⟩, 64, []⟩] ∧
      InOrder (run Sockets.step {} twoReceives).log :=
  ⟨by decide, by decide, (socket_operations_in_order twoReceives (by decide)).1⟩

/-- A receive that waits, and one started later that is tried when the data is there. -/
def lateReceive : List Label :=
  [.start 1 5 9 .read 100 true true, .attempt 0 0 true, .directResult 0 0,
    .start 1 5 9 .read 200 true true, .attempt 1 32 false, .directResult 1 0,
    .poll 10 fun _ => some { ready := fun _ => true }, .handOver 1 11, .call 0 64 false]

theorem late_receive_overtakes :
    (run Sockets.step {} lateReceive).log = [⟨0, ⟨9, .read⟩, 64, []⟩, ⟨1, ⟨9, .read⟩, 32, [0]⟩] ∧
      ¬ InOrder (run Sockets.step {} lateReceive).log := by
  decide

end Autorun.Server.SocketIo
