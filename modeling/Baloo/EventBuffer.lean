import Baloo.KInotify

/-!
# The event buffer

The kernel writes events one after the other: a header of sixteen bytes, and the name of the file with
padding. From such a buffer `processEventBuffer` takes the events as they were written, and it reads
no byte behind the end (`processLoop_packets`).
-/

namespace Baloo

namespace KInotify

/-- The bits of which an event has one. -/
abbrev eventBits : List UInt32 :=
  [EventAccess, EventModify, EventAttributeChange, EventCloseWrite, EventCloseRead, EventOpen,
    EventMoveFrom, EventMoveTo, EventCreate, EventDelete, EventDeleteSelf, EventMoveSelf, EventUnmount,
    EventIgnored]

/-- What the kernel writes: overflow markers, and events with one bit that may concern a directory. -/
structure Event.WellFormed (event : Event) : Prop where
  /-- `wd` is an `int` -/
  bounded : -2 ^ 31 ≤ event.wd ∧ event.wd < 2 ^ 31
  /-- a marker has no descriptor -/
  kind : (event.wd < 0 ∧ event.mask = EventQueueOverflow) ∨
    (0 ≤ event.wd ∧ ∃ bit ∈ eventBits, event.mask = bit ∨ event.mask = bit ||| InIsDir)
  /-- names have no null byte -/
  name : 0 ∉ event.name
  /-- markers and events of a watched directory itself have no name -/
  nameless : hasBit event.mask (EventDeleteSelf ||| EventMoveSelf ||| EventQueueOverflow) = true →
    event.name = []

/-- An event in the buffer: its name is followed by null bytes. -/
structure Packet where
  /-- the event -/
  event : Event
  /-- the number of null bytes -/
  padding : ℕ

namespace Packet

/-- The packet is well formed. -/
structure WellFormed (packet : Packet) : Prop where
  event : packet.event.WellFormed
  /-- `len` is a `uint32_t` -/
  len : packet.event.name.length + packet.padding < 2 ^ 32

/-- A `uint32_t` in memory. -/
def putUInt32 (value : UInt32) : QByteArray :=
  [UInt8.ofNat value.toNat, UInt8.ofNat (value.toNat / 256), UInt8.ofNat (value.toNat / 65536),
    UInt8.ofNat (value.toNat / 16777216)]

/-- `inotify_event` in memory. -/
def bytes (packet : Packet) : QByteArray :=
  putUInt32 (Int32.ofInt packet.event.wd).toUInt32 ++ (putUInt32 packet.event.mask ++
    (putUInt32 packet.event.cookie ++
      (putUInt32 (UInt32.ofNat (packet.event.name.length + packet.padding)) ++
        (packet.event.name ++ List.replicate packet.padding 0))))

theorem uint32At_putUInt32 (value : UInt32) (memory : QByteArray) :
    uint32At (putUInt32 value ++ memory) = some value := by
  have hlt := value.toNat_lt
  simp only [putUInt32, List.cons_append, List.nil_append, uint32At, UInt8.toNat_ofNat', Option.some.injEq]
  rw [← UInt32.toNat_inj, UInt32.toNat_ofNat']
  omega

theorem drop_putUInt32 (value : UInt32) (memory : QByteArray) (n : ℕ) :
    (putUInt32 value ++ memory).drop (4 + n) = memory.drop n := by
  rw [Nat.add_comm, List.drop_append]
  simp [putUInt32]

theorem qstrnlen_padded {name : QByteArray} (h : 0 ∉ name) (padding : ℕ) (memory : QByteArray) :
    qstrnlen (name ++ List.replicate padding 0 ++ memory) (name.length + padding) = some name := by
  have htake : (name ++ List.replicate padding 0 ++ memory).take (name.length + padding) =
      name ++ List.replicate padding 0 := List.take_left' (by simp)
  have hname : ∀ b ∈ name, decide (b ≠ 0) = true := by
    intro b hb
    simp only [decide_not, Bool.not_eq_true', decide_eq_false_iff_not]
    rintro rfl
    exact h hb
  rw [qstrnlen, htake, if_pos (Or.inl (by simp)), List.takeWhile_append_of_pos hname]
  cases padding <;> simp [List.replicate_succ]

variable {packet : Packet}

theorem length_bytes (packet : Packet) :
    packet.bytes.length = 16 + (packet.event.name.length + packet.padding) := by
  simp [bytes, putUInt32]
  omega

/-- Reading what was written. -/
theorem readEvent_bytes (h : packet.WellFormed) (memory : QByteArray) :
    readEvent (packet.bytes ++ memory) = some (packet.event, packet.bytes.length) := by
  obtain ⟨⟨wd, mask, cookie, name⟩, padding⟩ := packet
  obtain ⟨⟨⟨hlow, hhigh⟩, -, hname, hnameless⟩, hlen⟩ := h
  have hwd : (Int32.ofInt wd).toUInt32.toInt32.toInt = wd := by
    rw [Int32.toInt32_toUInt32, Int32.toInt_ofInt_of_le hlow hhigh]
  have hsize : (UInt32.ofNat (name.length + padding)).toNat = name.length + padding := by
    rw [UInt32.toNat_ofNat']
    exact Nat.mod_eq_of_lt hlen
  set tail := name ++ List.replicate padding 0 ++ memory with htail
  set len := UInt32.ofNat (name.length + padding) with hlen'
  have hbytes : bytes ⟨⟨wd, mask, cookie, name⟩, padding⟩ ++ memory =
      putUInt32 (Int32.ofInt wd).toUInt32 ++ (putUInt32 mask ++ (putUInt32 cookie ++
        (putUInt32 len ++ tail))) := by
    simp only [bytes, htail, hlen', List.append_assoc]
  have h4 := drop_putUInt32 (Int32.ofInt wd).toUInt32
    (putUInt32 mask ++ (putUInt32 cookie ++ (putUInt32 len ++ tail)))
  have h8 := drop_putUInt32 mask (putUInt32 cookie ++ (putUInt32 len ++ tail))
  have h12 := drop_putUInt32 cookie (putUInt32 len ++ tail)
  have hmask := (h4 0).trans List.drop_zero
  have hcookie := (h4 4).trans ((h8 0).trans List.drop_zero)
  have hlenAt := (h4 8).trans ((h8 4).trans ((h12 0).trans List.drop_zero))
  have hnameAt := (h4 12).trans ((h8 8).trans ((h12 4).trans ((drop_putUInt32 len tail 0).trans List.drop_zero)))
  rw [length_bytes, readEvent, hbytes, uint32At_putUInt32, hmask, uint32At_putUInt32, hcookie,
    uint32At_putUInt32, hlenAt, uint32At_putUInt32]
  dsimp only
  rw [hnameAt, hwd, hsize, htail]
  split
  · next hself =>
    have hnone : name = [] := by
      refine hnameless ?_
      rw [Bool.or_eq_true, Bool.and_eq_true] at hself
      rw [hasBit_or, Bool.or_eq_true]
      rcases hself with ⟨-, h⟩ | h
      · exact Or.inr h
      · exact Or.inl h
    rw [hnone]
    rfl
  · rw [qstrnlen_padded hname]
    rfl

end Packet

section

variable {σ : Type} [Inotify σ] (env : Surroundings) (fuel : ℕ)

/-- The events are handled one after the other. -/
def dispatch (now : ℕ) : KInotify σ → Option ℕ → List Event → Option (KInotify σ × List Handled)
  | k, _, [] => some (k, [])
  | k, deadline, event :: events =>
    (handleEvent env fuel now k deadline event).bind fun (k, deadline, handled) =>
      (dispatch now k deadline events).map fun (k, trace) => (k, handled :: trace)

/-- What is in the buffer is handled, each event once and in order. -/
theorem processLoop_packets {packets : List Packet} (h : ∀ packet ∈ packets, packet.WellFormed) (now : ℕ)
    (k : KInotify σ) (deadline : Option ℕ) :
    processLoop env fuel now k deadline (packets.flatMap Packet.bytes) =
      dispatch env fuel now k deadline (packets.map Packet.event) := by
  induction packets generalizing k deadline with
  | nil =>
    rw [processLoop]
    rfl
  | cons packet packets ih =>
    have hread := Packet.readEvent_bytes (h packet (List.mem_cons_self ..)) (packets.flatMap Packet.bytes)
    have hne : packet.bytes ++ packets.flatMap Packet.bytes ≠ [] := by
      intro hnil
      have hlen := Packet.length_bytes packet
      rw [(List.append_eq_nil_iff.mp hnil).1, List.length_nil] at hlen
      omega
    rw [List.flatMap_cons, processLoop, if_neg hne]
    split
    · next hnone =>
      rw [hread] at hnone
      cases hnone
    · next event size hsome =>
      rw [hread] at hsome
      obtain ⟨rfl, rfl⟩ := Prod.mk.inj (Option.some.inj hsome)
      rw [List.drop_left, List.map_cons, dispatch]
      simp only [ih (fun p hp => h p (List.mem_cons_of_mem _ hp))]

end

end KInotify

end Baloo
