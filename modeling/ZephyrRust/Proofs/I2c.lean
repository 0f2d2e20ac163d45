import Mathlib.Tactic.Common
import ZephyrRust.I2c
import ZephyrRust.Lib.SplitBy

/-!
# `ZephyrRust.Proofs.I2c`: a transfer has the phases of its operations

`transfer` takes a list of operations, and the bus sees phases that begin at RESTARTs. The phases
are the runs of operations with one direction (`Operation.phases`), with the bytes of each operation
in order. `sent` is the list of the messages. The loop builds it in the array, where each round
reads the direction of the operation before from the flags of its message.
-/

set_option autoImplicit false

namespace ZephyrRust.I2c

open ZephyrRust.Lib (SplitBy.map_splitBy_eq)

/-- What a message or an operation does: its direction, and the bytes. -/
structure Part where
  read : Bool
  buf : Nat
  len : UInt32
  deriving DecidableEq

/-- The operation reads. -/
def Operation.isRead : Operation → Bool
  | .write _ => false
  | .read _ => true

/-- What an operation does. The kernel has 32 bits for the length. -/
def Operation.part (op : Operation) : Part where
  read := op.isRead
  buf := op.buf.ptr
  len := UInt32.ofNat op.buf.len

/-- The phases that the caller asks for: neighbours with one direction are in one phase. -/
def Operation.phases (ops : List Operation) : List (List Part) :=
  (ops.splitBy fun a b => a.isRead == b.isRead).map (List.map Operation.part)

/-- What a message does. -/
def Msg.part (F : MsgFlags) (msg : Msg) : Part where
  read := msg.flags &&& F.read != 0
  buf := msg.buf
  len := msg.len

/-- The message has RESTART. -/
def Msg.restart (F : MsgFlags) (msg : Msg) : Bool := msg.flags &&& F.restart != 0

/-- The phases on the bus: each RESTART begins a new one. -/
def Msg.phases (F : MsgFlags) (msgs : List Msg) : List (List Part) :=
  (msgs.splitBy fun _ msg => !msg.restart F).map (List.map (Msg.part F))

variable {F : MsgFlags} {msgs msgs' : Msgs} {i : Nat} {previous : Option Operation}
  {op : Operation} {ops : List Operation}

/-- The message of an operation, after the operation `previous`. -/
def Operation.msg (F : MsgFlags) (previous : Option Operation) (op : Operation) : Msg where
  buf := op.buf.ptr
  len := UInt32.ofNat op.buf.len
  flags :=
    if previous.any fun p => p.isRead != op.isRead then op.flags F ||| F.restart else op.flags F

/-- The operations with their messages. -/
def sent (F : MsgFlags) : Option Operation → List Operation → List (Operation × Msg)
  | _, [] => []
  | previous, op :: ops => (op, op.msg F previous) :: sent F (some op) ops

theorem uint8_and_or_distrib_right (a b c : UInt8) : (a ||| b) &&& c = a &&& c ||| b &&& c :=
  UInt8.toBitVec_inj.mp BitVec.and_or_distrib_right

namespace Operation

theorem flags_read : op.flags F &&& F.read = if op.isRead then F.read else 0 := by
  cases op with
  | write _ => exact F.write_read
  | read _ => exact UInt8.and_self

theorem flags_restart : op.flags F &&& F.restart = 0 := by
  cases op with
  | write _ => exact F.write_restart
  | read _ => exact F.read_restart

/-- The flags tell the direction. -/
theorem flags_read_eq_iff {op' : Operation} :
    op.flags F &&& F.read = op'.flags F &&& F.read ↔ op.isRead = op'.isRead := by
  have hne : ¬0 = F.read := fun h => F.read_ne h.symm
  rw [flags_read, flags_read]
  cases op.isRead <;> cases op'.isRead <;> simp [F.read_ne, hne]

/-- RESTART does not change the direction. -/
theorem msg_flags_read :
    (op.msg F previous).flags &&& F.read = if op.isRead then F.read else 0 := by
  have hrestart : F.restart &&& F.read = 0 := by rw [UInt8.and_comm, F.read_restart]
  rw [msg]
  split
  · rw [uint8_and_or_distrib_right, hrestart, UInt8.or_zero, flags_read]
  · exact flags_read

theorem msg_part : (op.msg F previous).part F = op.part := by
  rw [Msg.part, msg_flags_read, part]
  cases op with
  | write _ => simp [isRead, msg]
  | read _ => simp [isRead, msg, F.read_ne]

/-- RESTART is where the direction changes. -/
theorem msg_restart :
    (op.msg F previous).restart F = previous.any fun p => p.isRead != op.isRead := by
  rw [Msg.restart, msg]
  split
  case isTrue h => simp [h, uint8_and_or_distrib_right, flags_restart, F.restart_ne]
  case isFalse h => simp [h, flags_restart]

end Operation

theorem map_fst_sent : (sent F previous ops).map Prod.fst = ops := by
  induction ops generalizing previous with
  | nil => rfl
  | cons op ops ih => rw [sent, List.map_cons, ih]

/-- Neighbours are in one phase on the bus when they have one direction. -/
theorem isChain_sent : (sent F previous ops).IsChain fun a b =>
    (!b.2.restart F) = (a.1.isRead == b.1.isRead) := by
  induction ops generalizing previous with
  | nil => exact .nil
  | cons op ops ih =>
    cases ops with
    | nil => exact .singleton _
    | cons op' ops =>
      refine List.isChain_cons_cons.mpr ⟨?_, ih⟩
      -- The second message has `op` before it.
      simp [Operation.msg_restart, bne]

theorem part_of_mem_sent {p : Operation × Msg} (hp : p ∈ sent F previous ops) :
    p.2.part F = p.1.part := by
  induction ops generalizing previous with
  | nil => cases hp
  | cons op ops ih =>
    rcases List.mem_cons.mp hp with rfl | hp
    · exact Operation.msg_part
    · exact ih hp

/-- The phases of the messages are those of the operations. -/
theorem phases_sent :
    Msg.phases F ((sent F previous ops).map Prod.snd) = Operation.phases ops := by
  have h : Msg.phases F ((sent F previous ops).map Prod.snd)
      = Operation.phases ((sent F previous ops).map Prod.fst) :=
    SplitBy.map_splitBy_eq isChain_sent fun _ => part_of_mem_sent
  rw [h, map_fst_sent]

/-- The operation before the `i`th, whose message the array has. -/
inductive Before (F : MsgFlags) (msgs : Msgs) : Nat → Option Operation → Prop
  | first : Before F msgs 0 none
  | next {i : Nat} {op : Operation} {msg : Msg} (hmsg : msgs[i]? = some msg)
      (hread : msg.flags &&& F.read = op.flags F &&& F.read) : Before F msgs (i + 1) (some op)

/-- A round of the loop. -/
theorem fillMsg_eq (hprev : Before F msgs i previous) (hi : i < maxTransferOps) :
    fillMsg F msgs i op = some (msgs.set i (op.msg F previous) hi) := by
  cases hprev with
  | first => simp [fillMsg, Operation.msg, hi]
  | @next i p msg hmsg hread =>
    by_cases hdir : p.isRead = op.isRead
    · have hflags : msg.flags &&& F.read = op.flags F &&& F.read :=
        hread.trans (Operation.flags_read_eq_iff.mpr hdir)
      simp [fillMsg, Operation.msg, hi, hmsg, hflags, hdir]
    · have hflags : ¬msg.flags &&& F.read = op.flags F &&& F.read := fun h =>
        hdir (Operation.flags_read_eq_iff.mp (hread.symm.trans h))
      simp [fillMsg, Operation.msg, hi, hmsg, hflags, hdir]

/-- The loop from the `i`th operation on. -/
theorem fill_eq (hprev : Before F msgs i previous) (hlen : i + ops.length ≤ maxTransferOps) :
    ∃ msgs', fill F msgs (ops.zipIdx i) = some msgs' ∧
      msgs'.toList.take (i + ops.length) =
        msgs.toList.take i ++ (sent F previous ops).map Prod.snd := by
  -- The operations before the `i`th only count through the last of them.
  induction ops generalizing msgs i previous with
  | nil => exact ⟨msgs, rfl, by simp [sent]⟩
  | cons op ops ih =>
    rw [List.length_cons] at hlen
    have hi : i < maxTransferOps := by omega
    have hnext : Before F (msgs.set i (op.msg F previous) hi) (i + 1) (some op) :=
      .next (Vector.getElem?_set_self hi) (by rw [Operation.msg_flags_read, Operation.flags_read])
    obtain ⟨msgs', hfill, htake⟩ := ih hnext (by omega)
    refine ⟨msgs', ?_, ?_⟩
    · rw [fill, List.zipIdx_cons, List.foldlM_cons, fillMsg_eq hprev hi]
      exact hfill
    · have htoList : (msgs.set i (op.msg F previous) hi).toList.take (i + 1)
          = msgs.toList.take i ++ [op.msg F previous] := by
        rw [Vector.toList_set, List.take_add_one, List.take_set_of_le (Nat.le_refl i)]
        simp [hi]
      rw [List.length_cons, show i + (ops.length + 1) = i + 1 + ops.length by omega, htake,
        htoList, List.append_assoc, sent]
      rfl

/-- `transfer` never panics. More than `maxTransferOps` operations are an error, and the kernel is
not called. Otherwise it is called once, with the number of operations and their messages: the first
has no RESTART, and the phases on the bus are those of the operations. The result is the code of the
kernel. -/
theorem transfer_phases {σ : Type} (F : MsgFlags) (i2cTransfer : Kernel σ) (addr : UInt16)
    (ops : List Operation) (s : σ) :
    (maxTransferOps < ops.length → transfer F i2cTransfer addr ops s = some (.error e2big, s)) ∧
    (ops.length ≤ maxTransferOps → ∃ (msgs : Msgs) (count : UInt8),
      transfer F i2cTransfer addr ops s = some
        (Error.toResultVoid (i2cTransfer msgs count addr s).1, (i2cTransfer msgs count addr s).2) ∧
      count.toNat = ops.length ∧
      (∀ msg ∈ (msgs.toList.take count.toNat).head?, msg.restart F = false) ∧
      Msg.phases F (msgs.toList.take count.toNat) = Operation.phases ops) := by
  constructor
  · intro hlen
    simp [transfer, hlen]
  · intro hlen
    have hfirst : Before F (Vector.replicate maxTransferOps {}) 0 none := .first
    obtain ⟨msgs, hfill, htake⟩ := fill_eq hfirst (by simpa using hlen)
    -- 8 bits hold the number of operations.
    have hcount : (UInt8.ofNat ops.length).toNat = ops.length := by
      rw [UInt8.toNat_ofNat']
      have : maxTransferOps = 8 := rfl
      omega
    have hsent : msgs.toList.take ops.length = (sent F none ops).map Prod.snd := by
      simpa using htake
    refine ⟨msgs, UInt8.ofNat ops.length, ?_, hcount, ?_, ?_⟩
    · simp [transfer, Nat.not_lt.mpr hlen, hfill]
    · rw [hcount, hsent]
      cases ops with
      | nil => simp [sent]
      | cons op ops => simp [sent, Operation.msg_restart]
    · rw [hcount, hsent, phases_sent]

/-- Two writes and a read: the writes are one phase. The state of the kernel is the phases that it
has been given. -/
theorem transfer_phases_three :
    transfer default
      (fun msgs count _ given => (0, given ++ Msg.phases default (msgs.toList.take count.toNat)))
      0x50 [.write ⟨0x1000, 1⟩, .write ⟨0x2000, 4⟩, .read ⟨0x3000, 2⟩] [] =
    some (.ok (), [[⟨false, 0x1000, 1⟩, ⟨false, 0x2000, 4⟩], [⟨true, 0x3000, 2⟩]]) := by
  obtain ⟨msgs, count, htransfer, -, -, hphases⟩ :=
    (transfer_phases default
      (fun msgs count _ given => (0, given ++ Msg.phases default (msgs.toList.take count.toNat)))
      0x50 [.write ⟨0x1000, 1⟩, .write ⟨0x2000, 4⟩, .read ⟨0x3000, 2⟩] []).2 (by decide)
  rw [htransfer, hphases]
  rfl

end ZephyrRust.I2c
