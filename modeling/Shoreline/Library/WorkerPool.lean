import Mathlib.Data.List.Basic
import Mathlib.Data.List.Range
import Mathlib.Logic.Function.Basic
import Mathlib.Tactic.Common

/-!
# Pools of workers in a heap array

The handles of the workers are kept in one heap array behind a pointer. Every
use of the array, every stop of a worker and every release of the array is
recorded with what it found, so that a record shows whether a freed or missing
array was touched, a worker stopped that was not running, or an array freed
twice. Nothing stops at a bad action; a record with one is bad as a whole.
-/

namespace WorkerPool

/-- What a pointer to a heap array refers to. -/
inductive Pointer where
  /-- Nothing. -/
  | null
  /-- An array in use. -/
  | live
  /-- An array that has been freed. -/
  | freed
  deriving DecidableEq, Repr

/-- A worker. -/
inductive Worker where
  /-- It was not created. -/
  | absent
  /-- It was created and not joined. -/
  | running
  /-- It has ended and was joined. -/
  | joined
  deriving DecidableEq, Repr

/-- An action on the pool, with what it found. -/
inductive Action where
  /-- End and join the worker of an index, through its handle in the array. -/
  | stop (index : ℕ) (array : Pointer) (worker : Worker)
  /-- Free the array. -/
  | free (array : Pointer)
  deriving DecidableEq, Repr

/-- A worker is stopped through a live array while it runs, and an array is
freed while it is live; freeing nothing is allowed. -/
def Action.Valid : Action → Prop
  | .stop _ array worker => array=.live ∧ worker=.running
  | .free array => array≠.freed

instance : ∀ a : Action, Decidable a.Valid
  | .stop _ _ _ => inferInstanceAs (Decidable (_ ∧ _))
  | .free _ => inferInstanceAs (Decidable (_≠_))

/-- The action frees an array. -/
def Action.frees : Action → Bool
  | .stop _ _ _ => false
  | .free array => array≠.null

/-- A pool and the record of the actions on it. -/
structure Pool where
  /-- The pointer to the array. -/
  array : Pointer
  /-- The workers. -/
  workers : ℕ → Worker
  /-- Actions from first to last. -/
  record : List Action

/-- A pool before anything happened. -/
def Pool.fresh : Pool := ⟨.null,fun _ => .absent,[]⟩

/-- The array is allocated, if there is memory. -/
def Pool.allocate (memory : Bool) (pool : Pool) : Pool :=
  {pool with array := if memory then .live else .null}

/-- A worker is created. -/
def Pool.start (i : ℕ) (pool : Pool) : Pool :=
  {pool with workers := Function.update pool.workers i .running}

/-- A worker is ended and joined. -/
def Pool.stop (i : ℕ) (pool : Pool) : Pool :=
  {pool with
    workers := Function.update pool.workers i .joined
    record := pool.record++[.stop i pool.array (pool.workers i)]}

/-- The array is freed; the pointer keeps referring to it. -/
def Pool.free (pool : Pool) : Pool :=
  {pool with
    array := if pool.array=.null then .null else .freed
    record := pool.record++[.free pool.array]}

/-- Stop the workers below an index, the last one first. -/
def stopDown : ℕ → Pool → Pool
  | 0,pool => pool
  | i+1,pool => stopDown i (pool.stop i)

/-- Stop so many workers from an index on, the first one first. -/
def stopUp : ℕ → ℕ → Pool → Pool
  | _,0,pool => pool
  | i,left+1,pool => stopUp (i+1) left (pool.stop i)

/-- The record of stopping workers that are told apart by their indices. -/
def stops (pool : Pool) (indices : List ℕ) : List Action :=
  indices.map fun i => .stop i pool.array (pool.workers i)

/-- What stopping one worker leaves for the record of others. -/
theorem stops_stop {pool : Pool} {i : ℕ} {indices : List ℕ} (h : i∉indices) :
    stops (pool.stop i) indices=stops pool indices := by
  refine List.map_congr_left fun j hj => ?_
  have hne : j≠i := fun heq => h (heq▸hj)
  rw [Pool.stop]
  congr 1
  exact Function.update_of_ne hne _ _

/-- Stopping downwards stops every worker below the index once. -/
theorem stopDown_eq (i : ℕ) (pool : Pool) :
    stopDown i pool=⟨pool.array,fun k => if k < i then .joined else pool.workers k,
      pool.record++stops pool (List.range i).reverse⟩ := by
  induction i generalizing pool with
  | zero => simp [stopDown,stops]
  | succ i ih =>
    rw [stopDown,ih]
    have hnot : i∉(List.range i).reverse := by simp
    congr 1
    · funext k
      by_cases hk : k < i
      · rw [if_pos hk,if_pos (Nat.lt_succ_of_lt hk)]
      · rw [if_neg hk]
        by_cases heq : k=i
        · rw [if_pos (by omega),heq]
          exact Function.update_self _ _ _
        · rw [if_neg (by omega)]
          exact Function.update_of_ne heq _ _
    · rw [stops_stop hnot,List.range_succ,List.reverse_append,Pool.stop,List.append_assoc]
      rfl

/-- Stopping upwards stops every worker of the range once. -/
theorem stopUp_eq (i left : ℕ) (pool : Pool) :
    stopUp i left pool=⟨pool.array,
      fun k => if i≤k ∧ k < i+left then .joined else pool.workers k,
      pool.record++stops pool (List.range' i left)⟩ := by
  induction left generalizing i pool with
  | zero =>
    rw [stopUp]
    have hnone : ∀ k,¬(i≤k ∧ k < i+0) := by omega
    simp only [hnone,if_false,List.range'_zero,stops,List.map_nil,List.append_nil]
  | succ left ih =>
    rw [stopUp,ih]
    have hnot : i∉List.range' (i+1) left := by
      rw [List.mem_range'_1]
      omega
    congr 1
    · funext k
      by_cases hk : i+1≤k ∧ k < i+1+left
      · rw [if_pos hk,if_pos (by omega)]
      · rw [if_neg hk]
        by_cases heq : k=i
        · rw [if_pos (by omega),heq]
          exact Function.update_self _ _ _
        · rw [if_neg (by omega)]
          exact Function.update_of_ne heq _ _
    · rw [stops_stop hnot,List.range'_succ,Pool.stop,List.append_assoc]
      rfl

/-- Stopping running workers of a live array is valid. -/
theorem valid_stops {pool : Pool} {indices : List ℕ} (harray : pool.array=.live)
    (hrunning : ∀ i∈indices,pool.workers i=.running) : ∀ a∈stops pool indices,a.Valid := by
  intro a ha
  obtain ⟨i,hi,rfl⟩ := List.mem_map.mp ha
  exact ⟨harray,hrunning i hi⟩

/-- No array is freed by stopping workers. -/
theorem countP_stops (pool : Pool) (indices : List ℕ) :
    (stops pool indices).countP Action.frees=0 := by
  rw [List.countP_eq_zero]
  intro a ha
  obtain ⟨i,-,rfl⟩ := List.mem_map.mp ha
  exact Bool.false_ne_true

end WorkerPool
