import Mathlib.Data.Finset.Card
import Autorun.Lib.Rows
import Autorun.Server.SocketIo

namespace Autorun.Server.SocketIo

open Autorun.Lib List

/-- What a poll makes of an operation whose turn it is, once its socket is ready. -/
def outcome (polled : Polled) (a : Async) : Option Status := if a.kind = .io then some .alerted else polled.accepted

/-- Every operation whose turn it is and whose socket is ready is made ready, or accepts. -/
def PollsAll (list : List Async) : Prop :=
  ∀ watch now sock polled direction a status, asyncNextQueued sock direction list = some a →
    watch sock = some polled → polled.ready direction = true → outcome polled a = some status →
    a.makeReady status now ∈ pollAllAsyncs list watch now

/-- The sockets with a queued operation ahead of the first one of a socket. -/
def socketsAhead (sock : Nat) (list : List Async) : Finset Nat :=
  (((list.takeWhile fun a => ¬(a.state = .queued ∧ a.sock = sock)).filter (·.state = .queued)).map Async.sock).toFinset

def Async.slot (a : Async) : Nat × Direction := (a.sock, a.direction)

variable {list : List Async} {a b : Async} {sock : Nat} {direction : Direction} {slot : Nat × Direction}
variable {polled : Polled} {now : UInt64} {status : Status} {watch : Nat → Option Polled}

/-- The operations of one socket in one direction. -/
def part (slot : Nat × Direction) (list : List Async) : List Async := list.filter (·.slot = slot)

theorem next_queued_part (sock : Nat) (direction : Direction) (list : List Async) :
    asyncNextQueued sock direction (part (sock, direction) list) = asyncNextQueued sock direction list := by
  induction list with
  | nil => rfl
  | cons a list ih =>
    have hslot : a.slot = (sock, direction) ↔ a.sock = sock ∧ a.direction = direction := Prod.mk.injEq .. ▸ Iff.rfl
    unfold part at *
    by_cases ha : a.slot = (sock, direction)
    · rw [filter_cons_of_pos (by simpa using ha)]
      simp [asyncNextQueued, hslot.mp ha, ih]
    · rw [filter_cons_of_neg (by simpa using ha), ih, asyncNextQueued, if_pos (by tauto)]

theorem next_queued_mem (hnext : asyncNextQueued sock direction list = some a) :
    a ∈ list ∧ a.slot = (sock, direction) ∧ a.state = .queued := by
  induction list with
  | nil => cases hnext
  | cons b list ih =>
    have hrest : asyncNextQueued sock direction list = some a → _ := fun hnext =>
      (ih hnext).imp_left (mem_cons_of_mem b)
    simp only [asyncNextQueued] at hnext
    split at hnext
    · exact hrest hnext
    rename_i hslot
    split at hnext
    · cases hnext
      exact ⟨mem_cons_self, by unfold Async.slot; grind, by assumption⟩
    · cases hnext
    · cases hnext
    · exact hrest hnext

/-- One direction of one socket, if there is something to poll. -/
def pollAt (watch : Nat → Option Polled) (now : UInt64) (list : List Async) (slot : Nat × Direction) : List Async :=
  match watch slot.1 with
  | some polled => pollDirection list slot.1 polled now slot.2
  | none => list

/-- The sockets and directions in the order in which they are polled. -/
def visits (list : List Async) : List (Nat × Direction) :=
  (pollHandles list []).flatMap fun sock => [(sock, .read), (sock, .write)]

theorem poll_all_eq (list : List Async) (watch : Nat → Option Polled) (now : UInt64) :
    pollAllAsyncs list watch now = (visits list).foldl (pollAt watch now) list := by
  rw [visits, foldl_flatMap, pollAllAsyncs]
  congr 1
  funext list sock
  simp only [foldl_cons, foldl_nil, pollAt]
  cases watch sock with
  | none => rfl
  | some polled => rfl

/-- A poll writes at most to the operation whose turn it is. -/
theorem poll_at_cases (watch : Nat → Option Polled) (now : UInt64) (list : List Async) (slot : Nat × Direction) :
    pollAt watch now list slot = list ∨ ∃ a status, asyncNextQueued slot.1 slot.2 list = some a ∧
      pollAt watch now list slot = asyncSet list a.op (Async.makeReady status now) := by
  unfold pollAt
  cases watch slot.1 with
  | none => exact .inl rfl
  | some polled =>
    dsimp only [pollDirection]
    cases hnext : asyncNextQueued slot.1 slot.2 list with
    | none => exact .inl rfl
    | some a =>
      dsimp only
      split
      · split
        · exact .inr ⟨a, _, rfl, rfl⟩
        · split
          · exact .inr ⟨a, _, rfl, rfl⟩
          · exact .inl rfl
      · exact .inl rfl

theorem poll_at_ops (list : List Async) (slot : Nat × Direction) :
    (pollAt watch now list slot).map Async.op = list.map Async.op := by
  rcases poll_at_cases watch now list slot with heq | ⟨a, status, -, heq⟩
  · rw [heq]
  · rw [heq]
    exact map_set Async.op list (f := Async.makeReady status now) (fun _ => rfl) a.op

theorem part_poll_at (hops : (list.map Async.op).Nodup) (hother : other ≠ slot) :
    part slot (pollAt watch now list other) = part slot list := by
  rcases poll_at_cases watch now list other with heq | ⟨a, status, hnext, heq⟩
  · rw [heq]
  · obtain ⟨ha, hplace, -⟩ := next_queued_mem hnext
    have hslot : (fun b : Async => decide (b.slot = slot)) ∘
        (fun b => if b.op = a.op then b.makeReady status now else b) = fun b => decide (b.slot = slot) := by
      funext b
      dsimp only [Function.comp_apply]
      split <;> rfl
    rw [heq, part, asyncSet, filter_map, hslot]
    refine (map_congr_left fun b hb => if_neg fun hop => ?_).trans (map_id' _)
    obtain ⟨hb, hmine⟩ := mem_filter.mp hb
    rw [inj_on_of_nodup_map hops hb ha hop, hplace] at hmine
    exact hother (by simpa using hmine)

theorem mem_poll_at_of_ready (hops : (list.map Async.op).Nodup) (hb : b ∈ list) (hready : b.state = .ready) :
    b ∈ pollAt watch now list slot := by
  rcases poll_at_cases watch now list slot with heq | ⟨a, status, hnext, heq⟩
  · rw [heq]
    exact hb
  · obtain ⟨ha, -, hqueued⟩ := next_queued_mem hnext
    rw [heq]
    refine mem_map.mpr ⟨b, hb, if_neg fun hop => ?_⟩
    rw [inj_on_of_nodup_map hops hb ha hop, hqueued] at hready
    cases hready

theorem mem_poll_at (hnext : asyncNextQueued slot.1 slot.2 list = some a) (hwatch : watch slot.1 = some polled)
    (hready : polled.ready slot.2 = true) (hstatus : outcome polled a = some status) :
    a.makeReady status now ∈ pollAt watch now list slot := by
  have hpoll : pollAt watch now list slot = asyncSet list a.op (Async.makeReady status now) := by
    unfold outcome at hstatus
    simp only [pollAt, hwatch, pollDirection, hnext, hready, if_true]
    split at hstatus
    · rename_i hio
      cases hstatus
      rw [if_pos hio]
    · rename_i haccept
      rw [if_neg haccept, hstatus]
  rw [hpoll]
  exact mem_map.mpr ⟨a, (next_queued_mem hnext).1, if_pos rfl⟩

section Fold

variable {slots : List (Nat × Direction)} (hops : (list.map Async.op).Nodup)
include hops

theorem part_polls (watch : Nat → Option Polled) (now : UInt64) (hslot : slot ∉ slots) :
    part slot (slots.foldl (pollAt watch now) list) = part slot list ∧
      ((slots.foldl (pollAt watch now) list).map Async.op).Nodup := by
  induction slots generalizing list with
  | nil => exact ⟨rfl, hops⟩
  | cons other slots ih =>
    obtain ⟨hne, hrest⟩ := not_or.mp (mt mem_cons.mpr hslot)
    obtain ⟨hpart, hnodup⟩ := ih ((poll_at_ops list other).symm ▸ hops) hrest
    exact ⟨hpart.trans (part_poll_at hops (Ne.symm hne)), hnodup⟩

theorem mem_polls_of_ready (hb : b ∈ list) (hready : b.state = .ready) :
    b ∈ slots.foldl (pollAt watch now) list := by
  induction slots generalizing list with
  | nil => exact hb
  | cons other slots ih =>
    exact ih ((poll_at_ops list other).symm ▸ hops) (mem_poll_at_of_ready hops hb hready)

end Fold

theorem subset_poll_handles (list : List Async) (handles : List Nat) : handles ⊆ pollHandles list handles := by
  induction list generalizing handles with
  | nil => exact fun _ h => h
  | cons a list ih =>
    unfold pollHandles
    split
    · refine List.Subset.trans ?_ (ih _)
      split
      · exact subset_append_left ..
      · exact fun _ h => h
    · exact fun _ h => h

/-- A socket gets a place in the array as long as there is room for those ahead of it. -/
theorem mem_poll_handles (handles : List Nat) (hnodup : handles.Nodup)
    (hqueued : ∃ a ∈ list, a.state = .queued ∧ a.sock = sock) :
    sock ∈ pollHandles list handles ↔
      sock ∈ handles ∨ (handles.toFinset ∪ socketsAhead sock list).card < 64 := by
  induction list generalizing handles with
  | nil =>
    obtain ⟨a, ha, -⟩ := hqueued
    cases ha
  | cons a list ih =>
    have hcard := toFinset_card_of_nodup hnodup
    unfold pollHandles
    split
    · rename_i hroom
      by_cases hfirst : a.state = .queued ∧ a.sock = sock
      · have hnone : socketsAhead sock (a :: list) = ∅ := by simp [socketsAhead, hfirst]
        rw [hnone, Finset.union_empty, hcard]
        refine iff_of_true (subset_poll_handles list _ ?_) (.inr hroom)
        grind
      have hrest : ∃ b ∈ list, b.state = .queued ∧ b.sock = sock := by
        obtain ⟨b, hb, hmine⟩ := hqueued
        exact ⟨b, (mem_cons.mp hb).resolve_left fun he => hfirst (he ▸ hmine), hmine⟩
      by_cases hq : a.state = .queued
      · have hother : a.sock ≠ sock := fun he => hfirst ⟨hq, he⟩
        have hahead : socketsAhead sock (a :: list) = insert a.sock (socketsAhead sock list) := by
          simp [socketsAhead, hq, hother]
        rw [hahead, Finset.union_insert, ← Finset.insert_union]
        split
        · rename_i hnew
          have hnodup : (handles ++ [a.sock]).Nodup := by grind
          simp [ih _ hnodup hrest, Ne.symm hother]
        · rename_i hold
          have hin : a.sock ∈ handles.toFinset := mem_toFinset.mpr (not_not.mp fun hn => hold ⟨hq, hn⟩)
          rw [ih handles hnodup hrest, Finset.insert_eq_of_mem hin]
      · have hahead : socketsAhead sock (a :: list) = socketsAhead sock list := by simp [socketsAhead, hq]
        rw [if_neg (fun h => hq h.1), ih handles hnodup hrest, hahead]
    · rename_i hfull
      have hle : handles.toFinset.card ≤ (handles.toFinset ∪ socketsAhead sock (a :: list)).card :=
        Finset.card_le_card Finset.subset_union_left
      rw [or_iff_left (by omega)]

/-- One look at all sockets reaches each operation whose turn it is, unless 64 sockets with a queued operation
are ahead of its own in the list. -/
theorem poll_all_reaches_iff (list : List Async) (hops : (list.map Async.op).Nodup) :
    PollsAll list ↔
      ∀ sock direction a, asyncNextQueued sock direction list = some a → (socketsAhead sock list).card < 64 := by
  have hturn : ∀ {sock direction a}, asyncNextQueued sock direction list = some a →
      ((sock, direction) ∈ visits list ↔ (socketsAhead sock list).card < 64) := by
    intro sock direction a hnext
    obtain ⟨ha, hslot, hqueued⟩ := next_queued_mem hnext
    have hmem := mem_poll_handles [] .nil ⟨a, ha, hqueued, congrArg Prod.fst hslot⟩
    have hvisit : (sock, direction) ∈ visits list ↔ sock ∈ pollHandles list [] := by
      unfold visits
      cases direction <;> simp
    rw [hvisit, hmem]
    simp
  constructor
  · intro hall sock direction a hnext
    by_contra hfar
    have hslot := mt (hturn hnext).mp hfar
    obtain ⟨ha, hplace, hqueued⟩ := next_queued_mem hnext
    have hready := hall (fun _ => some ⟨fun _ => true, some .alerted⟩) 0 sock _ direction a .alerted hnext rfl rfl
      (by simp [outcome])
    rw [poll_all_eq] at hready
    obtain ⟨hpart, -⟩ := part_polls hops (fun _ => some ⟨fun _ => true, some .alerted⟩) 0 hslot
    have hmine : a.makeReady .alerted 0 ∈ part (sock, direction) list := by
      rw [← hpart]
      exact mem_filter.mpr ⟨hready, decide_eq_true hplace⟩
    have hsame := inj_on_of_nodup_map hops (mem_filter.mp hmine).1 ha rfl
    have hstate := congrArg Async.state hsame
    rw [hqueued] at hstate
    cases hstate
  · intro hnear watch now sock polled direction a status hnext hwatch hready hstatus
    obtain ⟨pre, post, hvisits, hpre⟩ :=
      eq_append_cons_of_mem ((hturn hnext).mpr (hnear sock direction a hnext))
    obtain ⟨hpart, hnodup⟩ := part_polls hops watch now hpre
    rw [poll_all_eq, hvisits, foldl_append, foldl_cons]
    refine mem_polls_of_ready ?_ (mem_poll_at ?_ hwatch hready hstatus) rfl
    · rw [poll_at_ops]
      exact hnodup
    · rw [← next_queued_part, hpart, next_queued_part]
      exact hnext

/-- A receive that waits on a socket of its own. -/
def lonely (sock : Nat) : Async :=
  { op := sock, socket := sock, id := 1, ownerTid := 1, sock, direction := .read, state := .queued, iosb := 0, kind := .io }

theorem poll_all_reaches_two : PollsAll [lonely 1, lonely 2] := by
  refine (poll_all_reaches_iff [lonely 1, lonely 2] (by decide)).mpr fun sock _ _ _ => ?_
  refine Nat.lt_of_le_of_lt (toFinset_card_le _) (Nat.lt_of_le_of_lt ?_ (by decide : 2 < 64))
  rw [length_map]
  exact (length_filter_le _ _).trans (takeWhile_sublist _).length_le

/-- The last of 65 sockets is ready, the others stay idle, and its operation is left where it was. -/
theorem last_socket_starves :
    asyncNextQueued 64 .read ((List.range 65).map lonely) = some (lonely 64) ∧
      pollAllAsyncs ((List.range 65).map lonely) (fun sock => some ⟨fun _ => sock = 64, none⟩) 0 =
        (List.range 65).map lonely := by
  decide +kernel

end Autorun.Server.SocketIo
