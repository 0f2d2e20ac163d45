import ZephyrRust.Philosophers.ChannelSync
import ZephyrRust.Proofs.Philosophers

/-!
# `ZephyrRust.Proofs.Philosophers.ChannelSync`: the server is six locks

A `release` takes effect when its command is sent, and a `take` when its reply is sent. In between
the server lags behind, and what it will do with a fork is decided by the commands in the queue.
`replay` runs these commands on the number of philosophers that the server counts at a fork: 0
when the fork is free, 1 when it is in use, 2 with a waiter. It fails where the server would panic.

The invariant is about one fork at a time. Each philosopher whose `take` has not taken effect has
exactly one token, in the order in which the server answers them: he is the one that the server
is replying to or the waiter of the fork, or his command is in the queue (`tokens`). The commands
in the queue lead to the number of the tokens and the holder. A fork has two users, so a new
`acquire` finds at most one of them there, and the server does not see a second waiter.
-/

set_option autoImplicit false

namespace ZephyrRust.Philosophers

namespace ChannelSync

open ZephyrRust.Lib (fifo fifo_push_of_full fifo_push_of_room)

/-! ### The channels -/

section
variable {T : Type} {bounded : Bool} {q q' : List T} {msg : T}

theorem send_eq_some (h : send bounded q msg = some q') : q' = q ++ [msg] := by
  unfold send at h
  by_cases hfull : capacity bounded = some q.length
  · rw [fifo_push_of_full hfull] at h
    cases h
  · rw [fifo_push_of_room hfull] at h
    exact (Option.some.inj h).symm

/-- A send to a channel that is not full goes through, and a channel with a message is the only
one that can be full. -/
theorem send_of_nil : send bounded [] msg = some [msg] := by
  cases bounded <;> rfl

theorem send_or_ne_nil (bounded : Bool) (q : List T) (msg : T) :
    send bounded q msg = some (q ++ [msg]) ∨ q ≠ [] := by
  cases q with
  | nil => exact .inl send_of_nil
  | cons _ _ => exact .inr (List.cons_ne_nil _ _)

theorem recv_eq_some : recv bounded q = some (msg, q') ↔ q = msg :: q' := by
  cases q with
  | nil => simp [recv, fifo]
  | cons _ _ => simp [recv, fifo]

end

/-! ### The commands in the queue -/

/-- The philosophers whose `acquire` of fork `i` is in the queue. -/
def requesters (i : Fork) (q : List Command) : List Phil :=
  q.filterMap fun c =>
    match c with
    | .acquire j n => if j = i then some n else none
    | .release _ => none

/-- How many philosophers a server counts at a fork. -/
def level : ChannelFork → Nat
  | .free => 0
  | .inUse => 1
  | .inUseWait _ => 2

/-- What the commands in the queue make of the count at fork `i`, or `none` where the server
panics. -/
def replay (i : Fork) (k : Nat) : List Command → Option Nat
  | [] => some k
  | .acquire j _ :: rest =>
    if j = i then if k < 2 then replay i (k + 1) rest else none else replay i k rest
  | .release j :: rest =>
    if j = i then if 0 < k then replay i (k - 1) rest else none else replay i k rest

theorem replay_append (i : Fork) (k : Nat) (q : List Command) (c : Command) :
    replay i k (q ++ [c]) = (replay i k q).bind fun m => replay i m [c] := by
  induction q generalizing k with
  | nil => rfl
  | cons d rest ih =>
    cases d with
    | acquire j n =>
      simp only [List.cons_append, replay]
      split
      · split
        · exact ih (k + 1)
        · rfl
      · exact ih k
    | release j =>
      simp only [List.cons_append, replay]
      split
      · split
        · exact ih (k - 1)
        · rfl
      · exact ih k

/-- Only an `acquire` raises the count. -/
theorem replay_le {i : Fork} {k m : Nat} {q : List Command} (h : replay i k q = some m) :
    m ≤ k + (requesters i q).length := by
  induction q generalizing k with
  | nil =>
    cases h
    exact Nat.le_add_right _ _
  | cons d rest ih =>
    cases d with
    | acquire j n =>
      simp only [replay] at h
      split at h
      · rename_i hj
        split at h
        · have hle := ih h
          simp only [requesters, List.filterMap_cons, if_pos hj, List.length_cons] at hle ⊢
          omega
        · cases h
      · rename_i hj
        have hle := ih h
        simpa only [requesters, List.filterMap_cons, if_neg hj] using hle
    | release j =>
      simp only [replay] at h
      split at h
      · split at h
        · have hle := ih h
          simp only [requesters, List.filterMap_cons] at hle ⊢
          omega
        · cases h
      · exact ih h

@[simp] theorem requesters_nil (i : Fork) : requesters i [] = [] := rfl

@[simp] theorem requesters_acquire_self (i : Fork) (n : Phil) (q : List Command) :
    requesters i (.acquire i n :: q) = n :: requesters i q := by
  simp [requesters]

theorem requesters_acquire_of_ne {i j : Fork} (h : j ≠ i) (n : Phil) (q : List Command) :
    requesters i (.acquire j n :: q) = requesters i q := by
  simp [requesters, h]

@[simp] theorem requesters_release (i j : Fork) (q : List Command) :
    requesters i (.release j :: q) = requesters i q := by
  simp [requesters]

@[simp] theorem requesters_append (i : Fork) (q r : List Command) :
    requesters i (q ++ r) = requesters i q ++ requesters i r :=
  List.filterMap_append

/-! ### The tokens -/

/-- The philosopher that the server is replying to about fork `i`. -/
def replying (i : Fork) : ServerPc → Option Phil
  | .reply j n => if j = i then some n else none
  | _ => none

/-- The count of the server at fork `i`. After the reply the fork is in use. -/
def count (x : ChannelSync) (i : Fork) : Nat :=
  match replying i x.server with
  | some _ => 1
  | none => level (x.forks i)

/-- The philosopher whose request of fork `i` the server has taken out of the queue. -/
def first (x : ChannelSync) (i : Fork) : List Phil :=
  match replying i x.server with
  | some n => [n]
  | none =>
    match x.forks i with
    | .inUseWait n => [n]
    | _ => []

/-- The philosophers whose `take` of fork `i` has not taken effect, in the order of the replies. -/
def tokens (x : ChannelSync) (i : Fork) : List Phil := x.first i ++ requesters i x.command

/-- The call of philosopher `n` that has not taken effect. -/
def op (x : ChannelSync) (n : Phil) : Option ForkOp :=
  match x.pc n with
  | .atRest => none
  | .sendAcquire i => some (.take i)
  | .recvReply i => if x.replies n = [] then some (.take i) else none
  | .sendRelease i => some (.release i)

/-- The server and the channels, as the locks have them. -/
structure Glue (x : ChannelSync) (l : Locks) : Prop where
  replay : ∀ i, replay i (x.count i) x.command =
    some ((l.holder i).toList.length + (x.tokens i).length)
  nodup : ∀ i, (x.tokens i).Nodup
  mem : ∀ i n, n ∈ x.tokens i ↔ x.pc n = .recvReply i ∧ x.replies n = []
  replies : ∀ n, x.replies n ≠ [] → x.replies n = [()] ∧ ∃ i, x.pc n = .recvReply i
  server : ∀ p, x.server ≠ .panicked p
  op : ∀ n, l.call n = x.op n

variable {x : ChannelSync} {l : Locks} {n : Phil} {i : Fork} {bounded : Bool}

/-- A philosopher with a token waits for the fork. -/
theorem Glue.call_of_mem (h : Glue x l) (hn : n ∈ x.tokens i) : l.call n = some (.take i) := by
  obtain ⟨hpc, hr⟩ := (h.mem i n).mp hn
  rw [h.op, ChannelSync.op, hpc]
  simp only [hr, if_true]

/-- Distinct users of a fork are at most two. -/
theorem length_le_two {q : List Phil} (hnodup : q.Nodup) (huses : ∀ n ∈ q, Uses n i) :
    q.length ≤ 2 := by
  rcases q with _ | ⟨a, _ | ⟨b, _ | ⟨c, rest⟩⟩⟩
  · simp
  · simp
  · simp
  · have hall : a = b ∨ a = c ∨ b = c :=
      users_le_two (huses a (by simp)) (huses b (by simp)) (huses c (by simp))
    simp only [List.nodup_cons, List.mem_cons, not_or] at hnodup
    rcases hall with h | h | h
    · exact absurd h hnodup.1.1
    · exact absurd h hnodup.1.2.1
    · exact absurd h hnodup.2.1.1

/-- The holder of a fork and the philosophers with a token are distinct users of it. -/
theorem Glue.claims (h : Glue x l) (husage : Usage l) (i : Fork) :
    ((l.holder i).toList ++ x.tokens i).Nodup ∧
      ∀ n ∈ (l.holder i).toList ++ x.tokens i, Uses n i := by
  refine ⟨List.nodup_append.mpr ⟨?_, h.nodup i, fun a ha b hb hab => ?_⟩, fun n hn => ?_⟩
  · cases l.holder i <;> simp
  · have hhold : l.holder i = some a := by simpa using ha
    exact absurd (husage.takes b i i (h.call_of_mem hb) (hab ▸ hhold)) (lt_irrefl i)
  · rcases List.mem_append.mp hn with hn | hn
    · exact husage.owns n i (by simpa using hn)
    · exact husage.users n i (h.call_of_mem hn)

/-! ### The steps keep the gluing relation -/

/-- The reply channel of a philosopher who does not wait for a reply is empty. -/
theorem Glue.replies_nil (h : Glue x l) (hpc : ∀ i, x.pc n ≠ .recvReply i) : x.replies n = [] := by
  by_contra hne
  obtain ⟨-, i, hi⟩ := h.replies n hne
  exact hpc i hi

/-- A philosopher sends an `acquire`: his token is the last one of the fork. -/
theorem Glue.sendAcquire (h : Glue x l) (husage : Usage l) (hpc : x.pc n = .sendAcquire i) :
    Glue { x with
      command := x.command ++ [.acquire i n]
      pc := Function.update x.pc n (.recvReply i) } l := by
  have hcall : l.call n = some (.take i) := by
    rw [h.op, ChannelSync.op, hpc]
  have hreplies : x.replies n = [] := h.replies_nil (by simp [hpc])
  have hnot : ∀ j, n ∉ x.tokens j := by
    intro j hj
    have hj' := ((h.mem j n).mp hj).1
    rw [hpc] at hj'
    cases hj'
  -- He is a third user with the holder and the tokens, so there is at most one of these.
  have hroom : (l.holder i).toList.length + (x.tokens i).length < 2 := by
    obtain ⟨hnodup, huses⟩ := h.claims husage i
    have hlen := length_le_two (i := i) (q := n :: ((l.holder i).toList ++ x.tokens i))
      (List.nodup_cons.mpr ⟨fun hmem => ?_, hnodup⟩) (fun m hm => ?_)
    · simp only [List.length_cons, List.length_append] at hlen
      omega
    · rcases List.mem_append.mp hmem with hmem | hmem
      · exact absurd (husage.takes n i i hcall (by simpa using hmem)) (lt_irrefl i)
      · exact hnot i hmem
    · rcases List.mem_cons.mp hm with rfl | hm
      · exact husage.users m i hcall
      · exact huses m hm
  have htokens : ∀ j, ChannelSync.tokens { x with
      command := x.command ++ [.acquire i n]
      pc := Function.update x.pc n (.recvReply i) } j =
      if j = i then x.tokens j ++ [n] else x.tokens j := by
    intro j
    by_cases hj : j = i
    · subst hj
      simp [ChannelSync.tokens, ChannelSync.first]
    · simp [ChannelSync.tokens, ChannelSync.first, hj, requesters_acquire_of_ne (Ne.symm hj)]
  refine ⟨fun j => ?_, fun j => ?_, fun j m => ?_, fun m hm => ?_, h.server, fun m => ?_⟩
  · rw [htokens, replay_append]
    have hj := h.replay j
    show ((ChannelSync.replay j (x.count j) x.command).bind _) = _
    rw [hj]
    by_cases hji : j = i
    · subst hji
      rw [Option.bind_some, ChannelSync.replay, if_pos rfl, if_pos hroom]
      simp [ChannelSync.replay, Nat.add_assoc]
    · simp [ChannelSync.replay, hji, Ne.symm hji]
  · rw [htokens]
    split
    · exact List.nodup_append.mpr ⟨h.nodup j, by simp, fun a ha b hb hab => by
        rw [List.mem_singleton.mp hb] at hab
        exact hnot j (hab ▸ ha)⟩
    · exact h.nodup j
  · rw [htokens]
    by_cases hm : m = n
    · subst hm
      by_cases hj : j = i
      · subst hj
        simp [hreplies]
      · simp [hj, hnot j, Ne.symm hj]
    · have hmem := h.mem j m
      by_cases hj : j = i
      · simpa [hj, hm] using hj ▸ hmem
      · simpa [hj, hm] using hmem
  · obtain ⟨hone, j, hj⟩ := h.replies m hm
    have hmn : m ≠ n := by
      rintro rfl
      exact hm hreplies
    exact ⟨hone, j, (Function.update_of_ne hmn _ x.pc).trans hj⟩
  · have hm := h.op m
    by_cases hmn : m = n
    · subst hmn
      simp [ChannelSync.op, hcall, hreplies]
    · simpa [ChannelSync.op, hmn] using hm

/-- A philosopher gets his reply. -/
theorem Glue.recvReply (h : Glue x l) (hpc : x.pc n = .recvReply i) (hr : x.replies n ≠ []) :
    Glue { x with
      replies := Function.update x.replies n []
      pc := Function.update x.pc n .atRest } l := by
  have hnot : ∀ j, n ∉ x.tokens j := fun j hj => hr ((h.mem j n).mp hj).2
  refine ⟨h.replay, h.nodup, fun j m => ?_, fun m hm => ?_, h.server, fun m => ?_⟩
  · show m ∈ x.tokens j ↔ _
    by_cases hm : m = n
    · subst hm
      simpa using hnot j
    · simpa [hm] using h.mem j m
  · by_cases hmn : m = n
    · subst hmn
      simp at hm
    · simp only [Function.update_of_ne hmn] at hm ⊢
      exact h.replies m hm
  · have hm := h.op m
    by_cases hmn : m = n
    · subst hmn
      rw [hm]
      simp [ChannelSync.op, hpc, hr]
    · simpa [ChannelSync.op, hmn] using hm

/-- The holder of a fork sends a `release`. -/
theorem Glue.sendRelease (h : Glue x l) (husage : Usage l) (hpc : x.pc n = .sendRelease i) :
    Glue { x with
      command := x.command ++ [.release i]
      pc := Function.update x.pc n .atRest }
      ⟨Function.update l.holder i none, Function.update l.call n none⟩ := by
  have hcall : l.call n = some (.release i) := by
    rw [h.op, ChannelSync.op, hpc]
  have hhold := husage.releases n i hcall
  have htokens : ∀ j, ChannelSync.tokens { x with
      command := x.command ++ [.release i]
      pc := Function.update x.pc n .atRest } j = x.tokens j := by
    intro j
    simp [ChannelSync.tokens, ChannelSync.first]
  refine ⟨fun j => ?_, fun j => ?_, fun j m => ?_, fun m hm => ?_, h.server, fun m => ?_⟩
  · rw [htokens, replay_append]
    have hj := h.replay j
    show ((ChannelSync.replay j (x.count j) x.command).bind _) = _
    rw [hj]
    by_cases hji : j = i
    · subst hji
      simp [ChannelSync.replay, hhold]
    · simp [ChannelSync.replay, hji, Ne.symm hji]
  · rw [htokens]
    exact h.nodup j
  · rw [htokens]
    by_cases hm : m = n
    · subst hm
      have hmem := h.mem j m
      rw [hpc] at hmem
      simpa using hmem
    · simpa [hm] using h.mem j m
  · obtain ⟨hone, j, hj⟩ := h.replies m hm
    have hmn : m ≠ n := by
      rintro rfl
      rw [hpc] at hj
      cases hj
    exact ⟨hone, j, (Function.update_of_ne hmn _ x.pc).trans hj⟩
  · have hm := h.op m
    by_cases hmn : m = n
    · subst hmn
      simp [ChannelSync.op]
    · simpa [ChannelSync.op, hmn] using hm

/-- A step of the server that changes no token, and that has counted the commands that it took
out of the queue. -/
theorem Glue.of_tokens {x' : ChannelSync} (h : Glue x l) (hpc : x'.pc = x.pc)
    (hreplies : x'.replies = x.replies) (hserver : ∀ p, x'.server ≠ .panicked p)
    (hfork : ∀ j, x'.tokens j = x.tokens j ∧
      ChannelSync.replay j (x'.count j) x'.command = ChannelSync.replay j (x.count j) x.command) :
    Glue x' l where
  replay j := by
    rw [(hfork j).1, (hfork j).2]
    exact h.replay j
  nodup j := by
    rw [(hfork j).1]
    exact h.nodup j
  mem j n := by
    rw [(hfork j).1, hpc, hreplies]
    exact h.mem j n
  replies n hn := by
    rw [hreplies] at hn ⊢
    rw [hpc]
    exact h.replies n hn
  server := hserver
  op n := by
    rw [ChannelSync.op, hpc, hreplies]
    exact h.op n

/-- The server takes an `acquire` out of the queue. It does not find a waiter. -/
theorem Glue.acquire {rest : List Command} (h : Glue x l) (hs : x.server = .recv)
    (hq : x.command = .acquire i n :: rest) :
    Glue (ChannelSync.acquire { x with command := rest } i n) l := by
  have hreplay := h.replay i
  rw [hq] at hreplay
  cases hf : x.forks i with
  | free =>
    have heq : ChannelSync.acquire { x with command := rest } i n =
        { x with command := rest, server := .reply i n } := by
      simp only [ChannelSync.acquire, hf]
    rw [heq]
    refine h.of_tokens rfl rfl (by simp) fun j => ?_
    by_cases hj : j = i
    · subst hj
      simp [ChannelSync.tokens, ChannelSync.first, ChannelSync.count, replying, level,
        ChannelSync.replay, hs, hq, hf]
    · simp [ChannelSync.tokens, ChannelSync.first, ChannelSync.count, replying,
        ChannelSync.replay, hs, hq, Ne.symm hj, requesters_acquire_of_ne (Ne.symm hj)]
  | inUse =>
    have heq : ChannelSync.acquire { x with command := rest } i n =
        { x with command := rest, forks := Function.update x.forks i (.inUseWait n) } := by
      simp only [ChannelSync.acquire, hf]
    rw [heq]
    refine h.of_tokens rfl rfl (by simp [hs]) fun j => ?_
    by_cases hj : j = i
    · subst hj
      simp [ChannelSync.tokens, ChannelSync.first, ChannelSync.count, replying, level,
        ChannelSync.replay, hs, hq, hf]
    · simp [ChannelSync.tokens, ChannelSync.first, ChannelSync.count, replying,
        ChannelSync.replay, hs, hq, hj, Ne.symm hj, requesters_acquire_of_ne (Ne.symm hj)]
  | inUseWait m =>
    simp [ChannelSync.count, replying, level, ChannelSync.replay, hs, hf] at hreplay

/-- The server takes a `release` out of the queue. It does not find a free fork. -/
theorem Glue.release {rest : List Command} (h : Glue x l) (hs : x.server = .recv)
    (hq : x.command = .release i :: rest) :
    Glue (ChannelSync.release { x with command := rest } i) l := by
  have hreplay := h.replay i
  rw [hq] at hreplay
  cases hf : x.forks i with
  | free =>
    simp [ChannelSync.count, replying, level, ChannelSync.replay, hs, hf] at hreplay
  | inUse =>
    have heq : ChannelSync.release { x with command := rest } i =
        { x with command := rest, forks := Function.update x.forks i .free } := by
      simp only [ChannelSync.release, hf]
    rw [heq]
    refine h.of_tokens rfl rfl (by simp [hs]) fun j => ?_
    by_cases hj : j = i
    · subst hj
      simp [ChannelSync.tokens, ChannelSync.first, ChannelSync.count, replying, level,
        ChannelSync.replay, hs, hq, hf]
    · simp [ChannelSync.tokens, ChannelSync.first, ChannelSync.count, replying,
        ChannelSync.replay, hs, hq, hj, Ne.symm hj]
  | inUseWait m =>
    have heq : ChannelSync.release { x with command := rest } i =
        { x with command := rest, server := .reply i m } := by
      simp only [ChannelSync.release, hf]
    rw [heq]
    refine h.of_tokens rfl rfl (by simp) fun j => ?_
    by_cases hj : j = i
    · subst hj
      simp [ChannelSync.tokens, ChannelSync.first, ChannelSync.count, replying, level,
        ChannelSync.replay, hs, hq, hf]
    · simp [ChannelSync.tokens, ChannelSync.first, ChannelSync.count, replying,
        ChannelSync.replay, hs, hq, Ne.symm hj]

/-- While the server replies to a philosopher, he has the first token of a fork without a
holder. -/
theorem Glue.replying (h : Glue x l) (hs : x.server = .reply i n) :
    x.tokens i = n :: requesters i x.command ∧ l.holder i = none := by
  have htokens : x.tokens i = n :: requesters i x.command := by
    simp [ChannelSync.tokens, ChannelSync.first, ChannelSync.replying, hs]
  refine ⟨htokens, ?_⟩
  have hle := replay_le (h.replay i)
  rw [htokens] at hle
  cases hh : l.holder i with
  | none => rfl
  | some m =>
    simp [hh, ChannelSync.count, ChannelSync.replying, hs] at hle

/-- The server sends a reply, and the `take` takes effect. -/
theorem Glue.reply (h : Glue x l) (hs : x.server = .reply i n) :
    Glue { x with
      replies := Function.update x.replies n [()]
      forks := Function.update x.forks i .inUse
      server := .recv }
      ⟨Function.update l.holder i (some n), Function.update l.call n none⟩ := by
  obtain ⟨htok, hfree⟩ := h.replying hs
  obtain ⟨hpc, hnil⟩ := (h.mem i n).mp (by simp [htok])
  have hnodup := h.nodup i
  rw [htok, List.nodup_cons] at hnodup
  have htokens : ∀ j, ChannelSync.tokens { x with
      replies := Function.update x.replies n [()]
      forks := Function.update x.forks i .inUse
      server := .recv } j = if j = i then requesters i x.command else x.tokens j := by
    intro j
    by_cases hj : j = i
    · subst hj
      simp [ChannelSync.tokens, ChannelSync.first, ChannelSync.replying]
    · simp [ChannelSync.tokens, ChannelSync.first, ChannelSync.replying, hs, hj, Ne.symm hj]
  refine ⟨fun j => ?_, fun j => ?_, fun j m => ?_, fun m hm => ?_, by simp, fun m => ?_⟩
  · rw [htokens]
    have hj := h.replay j
    by_cases hji : j = i
    · subst hji
      simp [ChannelSync.count, ChannelSync.replying, level, htok, hfree, hs] at hj ⊢
      rw [hj, Nat.add_comm]
    · simpa [ChannelSync.count, ChannelSync.replying, hs, hji, Ne.symm hji] using hj
  · rw [htokens]
    split
    · exact hnodup.2
    · exact h.nodup j
  · rw [htokens]
    have hmem := h.mem j m
    by_cases hj : j = i
    · subst hj
      by_cases hm : m = n
      · subst hm
        simpa using hnodup.1
      · rw [htok, List.mem_cons, or_iff_right hm] at hmem
        simpa [hm] using hmem
    · by_cases hm : m = n
      · subst hm
        rw [hpc] at hmem
        simpa [hj, Ne.symm hj] using hmem
      · simpa [hj, hm] using hmem
  · by_cases hmn : m = n
    · subst hmn
      exact ⟨Function.update_self m _ x.replies, i, hpc⟩
    · simp only [Function.update_of_ne hmn] at hm ⊢
      exact h.replies m hm
  · have hm := h.op m
    by_cases hmn : m = n
    · subst hmn
      simp [ChannelSync.op, hpc]
    · simpa [ChannelSync.op, hmn] using hm

/-- The next statement of a method. A `release` takes effect when it is sent. -/
theorem Glue.client {x' : ChannelSync} (h : Glue x l) (husage : Usage l)
    (hs : x.client bounded n = some x') : ∃ l', locks.system.Later l l' ∧ Glue x' l' := by
  unfold ChannelSync.client at hs
  split at hs <;> rename_i hpc
  · cases hs
  · obtain ⟨q, hq, rfl⟩ := Option.map_eq_some_iff.mp hs
    rw [send_eq_some hq]
    exact ⟨l, .refl, h.sendAcquire husage hpc⟩
  · obtain ⟨⟨u, q⟩, hq, rfl⟩ := Option.map_eq_some_iff.mp hs
    have hcons := recv_eq_some.mp hq
    have hne : x.replies n ≠ [] := by simp [hcons]
    have hone := (h.replies n hne).1
    rw [hcons] at hone
    cases hone
    exact ⟨l, .refl, h.recvReply hpc hne⟩
  · rename_i i
    obtain ⟨q, hq, rfl⟩ := Option.map_eq_some_iff.mp hs
    rw [send_eq_some hq]
    have hcall : l.call n = some (.release i) := by rw [h.op, ChannelSync.op, hpc]
    exact ⟨_, .single (Locks.serve_release hcall), h.sendRelease husage hpc⟩

/-- The next step of the server. A `take` takes effect when its reply is sent. -/
theorem Glue.serve {x' : ChannelSync} (h : Glue x l) (hs : x.serve bounded = some x') :
    ∃ l', locks.system.Later l l' ∧ Glue x' l' := by
  unfold ChannelSync.serve at hs
  split at hs <;> rename_i hserver
  · obtain ⟨⟨c, rest⟩, hq, rfl⟩ := Option.map_eq_some_iff.mp hs
    have hcons := recv_eq_some.mp hq
    cases c with
    | acquire i n => exact ⟨l, .refl, h.acquire hserver hcons⟩
    | release i => exact ⟨l, .refl, h.release hserver hcons⟩
  · rename_i i n
    obtain ⟨q, hq, rfl⟩ := Option.map_eq_some_iff.mp hs
    obtain ⟨htok, hfree⟩ := h.replying hserver
    have hmem : n ∈ x.tokens i := by simp [htok]
    have hserve := Locks.serve_take (h.call_of_mem hmem) hfree
    rw [send_eq_some hq, ((h.mem i n).mp hmem).2]
    exact ⟨_, .single hserve, h.reply hserver⟩
  · cases hs

theorem implements (bounded : Bool) : Implements (channelSync bounded) Glue where
  init := by
    refine ⟨fun i => rfl, fun i => List.nodup_nil, fun i n => ?_, fun n hn => absurd rfl hn,
      fun p => by simp [channelSync], fun n => rfl⟩
    simp [channelSync, ChannelSync.tokens, ChannelSync.first, replying]
  rest x l n h hrest := by
    have hpc : x.pc n = .atRest := of_decide_eq_true hrest
    rw [h.op, ChannelSync.op, hpc]
  call x l n op _ h hrest := by
    have hpc : x.pc n = .atRest := of_decide_eq_true hrest
    have hnil := h.replies_nil (n := n) (by simp [hpc])
    refine ⟨h.replay, h.nodup, fun i m => (h.mem i m).trans ?_, fun m hm => ?_, h.server,
      fun m => ?_⟩ <;> by_cases hmn : m = n
    · subst hmn
      cases op <;> simp [channelSync, ChannelPc.enter, hpc]
    · simp [channelSync, hmn]
    · subst hmn
      exact absurd hnil hm
    · simpa [channelSync, hmn] using h.replies m hm
    · subst hmn
      cases op <;> simp [channelSync, ChannelPc.enter, ChannelSync.op]
    · have heq : ((channelSync bounded).call x n op).pc m = x.pc m := by simp [channelSync, hmn]
      rw [ChannelSync.op, heq]
      exact (Function.update_of_ne hmn _ l.call).trans (h.op m)
  step x l a x' husage h hs := by
    cases a with
    | client n => exact h.client husage hs
    | server => exact h.serve hs

/-! ### Nobody is stuck -/

/-- What is left to do for a philosopher, without the command that he has sent. -/
def weight : ChannelPc → Nat
  | .atRest => 0
  | .recvReply _ => 1
  | .sendRelease _ => 3
  | .sendAcquire _ => 4

/-- What is left to do: a command in the queue weighs more than a reply. -/
def measure (x : ChannelSync) : Nat :=
  (∑ n, weight (x.pc n)) + 2 * x.command.length +
    match x.server with
    | .reply _ _ => 1
    | _ => 0

/-- Some action leaves less to do. -/
def Moving (bounded : Bool) (x : ChannelSync) : Prop :=
  ∃ a x', (channelSync bounded).step x a = some x' ∧ measure x' < measure x

/-- The server goes on while it has something to do. -/
theorem Glue.moving_of_server (h : Glue x l)
    (hbusy : (∃ i n, x.server = .reply i n) ∨ x.command ≠ []) : Moving bounded x := by
  refine ⟨.server, ?_⟩
  cases hs : x.server with
  | panicked p => exact absurd hs (h.server p)
  | reply i n =>
    have hmem : n ∈ x.tokens i := by simp [(h.replying hs).1]
    have hsend : send bounded (x.replies n) () = some [()] := by
      rw [((h.mem i n).mp hmem).2]
      exact send_of_nil
    refine ⟨_, by simp only [channelSync, ChannelSync.serve, hs, hsend]; rfl, ?_⟩
    simp [measure, hs]
  | recv =>
    have hne : x.command ≠ [] := hbusy.resolve_left (by simp [hs])
    obtain ⟨c, rest, hcons⟩ := List.exists_cons_of_ne_nil hne
    have hrecv : recv bounded x.command = some (c, rest) := recv_eq_some.mpr hcons
    refine ⟨_, by simp only [channelSync, ChannelSync.serve, hs, hrecv]; rfl, ?_⟩
    cases c with
    | acquire i n =>
      cases hf : x.forks i with
      | free =>
        simp [ChannelSync.acquire, hf, measure, hs, hcons]
        omega
      | inUse | inUseWait m => simp [ChannelSync.acquire, hf, measure, hs, hcons]
    | release i =>
      cases hf : x.forks i with
      | inUseWait m =>
        simp [ChannelSync.release, hf, measure, hs, hcons]
        omega
      | free | inUse => simp [ChannelSync.release, hf, measure, hs, hcons]

/-- A philosopher sends his command, unless the server has commands to take first. -/
theorem Glue.moving_of_send (h : Glue x l) {c : Command} {p : ChannelPc}
    (hstep : x.client bounded n = (send bounded x.command c).map fun q =>
      { x with command := q, pc := Function.update x.pc n p })
    (hlt : weight p + 2 < weight (x.pc n)) : Moving bounded x := by
  rcases send_or_ne_nil bounded x.command c with hsend | hne
  · refine ⟨.client n, { x with
      command := x.command ++ [c]
      pc := Function.update x.pc n p }, ?_, ?_⟩
    · show x.client bounded n = _
      rw [hstep, hsend]
      rfl
    · have hsum := sum_update weight x.pc n p
      simp only [measure, List.length_append, List.length_singleton]
      omega
  · exact h.moving_of_server (.inr hne)

/-- A call that the locks would serve is not stuck. -/
theorem Glue.moving_of_ready (h : Glue x l) (hp : x.pc n ≠ .atRest) (hready : Ready l n) :
    Moving bounded x := by
  cases hpc : x.pc n with
  | atRest => exact absurd hpc hp
  | sendAcquire i =>
    exact h.moving_of_send (n := n) (p := .recvReply i) (c := .acquire i n)
      (by simp only [ChannelSync.client, hpc]) (by simp [hpc, weight])
  | sendRelease i =>
    exact h.moving_of_send (n := n) (p := .atRest) (c := .release i)
      (by simp only [ChannelSync.client, hpc]) (by simp [hpc, weight])
  | recvReply i =>
    by_cases hr : x.replies n = []
    · -- His token is with the server, or in the queue.
      have hmem := (h.mem i n).mpr ⟨hpc, hr⟩
      have hfree := hready i (h.call_of_mem hmem)
      refine h.moving_of_server ?_
      by_contra hidle
      obtain ⟨hnoreply, hnil⟩ := not_or.mp hidle
      have hnil : x.command = [] := not_ne_iff.mp hnil
      have hreplying : ChannelSync.replying i x.server = none := by
        unfold ChannelSync.replying
        split
        · exact absurd ⟨_, _, ‹x.server = _›⟩ hnoreply
        · rfl
      have hreplay := h.replay i
      -- An idle server has a waiter only when somebody holds the fork.
      cases hf : x.forks i <;>
        simp_all [ChannelSync.tokens, ChannelSync.first, ChannelSync.count, ChannelSync.replay,
          level]
    · refine ⟨.client n, _, by
        simp only [channelSync, ChannelSync.client, hpc, recv_eq_some.mpr
          (h.replies n hr).1, Option.map_some]; rfl, ?_⟩
      have hlt : weight .atRest < weight (x.pc n) := by simp [hpc, weight]
      have hsum := sum_update_lt hlt
      simp only [measure]
      omega

theorem live (bounded : Bool) :
    Live (channelSync bounded) Glue (fun _ => True) measure 4 where
  call x l n op _ _ := by
    have hle : weight (.enter op) ≤ 4 := by cases op <;> simp [ChannelPc.enter, weight]
    have hsum := sum_update_le (g := x.pc) (n := n) hle
    simp only [measure, channelSync]
    omega
  progress x l n _ h hrest hready := by
    have hpc : x.pc n ≠ .atRest := of_decide_eq_false hrest
    have hmoving : Moving bounded x := h.moving_of_ready hpc hready
    obtain ⟨a, x', hs, hlt⟩ := hmoving
    exact ⟨a, x', trivial, hs, hlt⟩

end ChannelSync

end ZephyrRust.Philosophers
