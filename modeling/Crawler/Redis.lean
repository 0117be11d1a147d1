/-
# Crawler.Redis — the commands sent to redis

The functions of `redis_func.c` that the filter and the parser use, as programs that send one command
and read its reply; and the store itself, for the commands they send: strings are bit strings whose
bits are 0 until they are set, lists are lists of strings.
-/
import Crawler.Core
import Crawler.Lib.Prog
import Mathlib.Logic.Function.Basic

namespace Crawler

open Crawler.Lib

/-- The commands. -/
inductive Command where
  | setbit (key : CStr) (off : UInt32) (value : Bool)
  | getbit (key : CStr) (off : UInt32)
  | bitop (op dest : CStr) (keys : List CStr)
  | rpush (key value : CStr)
  deriving DecidableEq, Repr

/-- A reply: an integer, a reply of another type, or `ctx->err`. -/
inductive Reply where
  | integer (n : UInt32)
  | other
  | failed
  deriving DecidableEq, Repr, Inhabited

/-! ## `redis_func.c` -/

/-- `redis_string_setbit(str, off, value)`. -/
def redisStringSetbit (str : CStr) (off value : UInt32) : Prog Command Reply Int := do
  match ← Prog.send (.setbit str off (value != 0)) with
  | .failed => return -1
  | _ => return 0

/-- `redis_string_getbit(str, off, &value)`: the return value, and what is stored in `value`, which no
caller reads after a failure. -/
def redisStringGetbit (str : CStr) (off : UInt32) : Prog Command Reply (Int × UInt32) := do
  match ← Prog.send (.getbit str off) with
  | .integer n => return (0, n)
  | _ => return (-1, 0)

/-- `redis_string_bitop(src1, src2, op, dest)`. The command is sent with the arguments in this order,
so that `src1` is where redis stores the result. -/
def redisStringBitop (src1 src2 op dest : CStr) : Prog Command Reply Int := do
  match ← Prog.send (.bitop op src1 [src2, dest]) with
  | .failed => return -1
  | _ => return 0

/-- `redis_list_rpush(key, value)`. -/
def redisListRpush (key value : CStr) : Prog Command Reply Int := do
  match ← Prog.send (.rpush key value) with
  | .failed => return -1
  | _ => return 0

/-! ## The store -/

/-- What redis stores under its keys. -/
structure Redis where
  strings : CStr → UInt32 → Bool
  lists : CStr → List CStr

/-- A bit as redis replies it. -/
def bitReply (b : Bool) : Reply := .integer (if b then 1 else 0)

/-- A command executed, atomically and with success. The length of the string or list, which redis
replies to BITOP and RPUSH, is read by nobody. -/
def Redis.exec (s : Redis) : Command → Redis × Reply
  | .setbit key off value =>
      ({ s with strings := Function.update s.strings key (Function.update (s.strings key) off value) },
        bitReply (s.strings key off))
  | .getbit key off => (s, bitReply (s.strings key off))
  | .bitop op dest keys =>
      if op = lit "XOR" then
        let bits := fun off => keys.foldl (fun b key => b ^^ s.strings key off) false
        ({ s with strings := Function.update s.strings dest bits }, .integer 0)
      else (s, .other)
  | .rpush key value =>
      ({ s with lists := Function.update s.lists key (s.lists key ++ [value]) }, .integer 0)

/-- A reply such as redis gives to a command that succeeds. -/
def Answered (c : Command) (r : Reply) : Prop :=
  r ≠ .failed ∧ ∀ key off, c = .getbit key off → ∃ n, r = .integer n

theorem Redis.exec_answered (s : Redis) (c : Command) : Answered c (s.exec c).2 := by
  cases c with
  | setbit key off value => exact ⟨by simp [exec, bitReply], by rintro _ _ ⟨⟩⟩
  | getbit key off => exact ⟨by simp [exec, bitReply], fun _ _ _ => ⟨_, rfl⟩⟩
  | bitop op dest keys =>
      refine ⟨?_, by rintro _ _ ⟨⟩⟩
      rw [exec]
      split_ifs <;> simp
  | rpush key value => exact ⟨by simp [exec], by rintro _ _ ⟨⟩⟩

end Crawler
