import Mathlib.Data.List.Basic
import Mathlib.Logic.Function.Basic

/-!
# Memory after a list of stores

A memory maps addresses to values. After a list of stores an address holds
what was stored there last. Where all stores to an address agree, or there
are none, the order of the list does not matter.
-/

namespace StoreLog

variable {Address Value : Type*} [DecidableEq Address]

/-- Carry out the stores from the first to the last. -/
def storeAll (memory : Address → Value) (stores : List (Address×Value)) : Address → Value :=
  stores.foldl (fun memory store => Function.update memory store.1 store.2) memory

/-- An address that is not stored to keeps its value. -/
theorem storeAll_of_notMem {stores : List (Address×Value)} {address : Address}
    (h : ∀ store∈stores,store.1≠address) (memory : Address → Value) :
    storeAll memory stores address=memory address := by
  induction stores generalizing memory with
  | nil => rfl
  | cons store stores ih =>
    have hrest := ih (fun other hother => h other (List.mem_cons_of_mem _ hother))
      (Function.update memory store.1 store.2)
    have hne := h store List.mem_cons_self
    refine hrest.trans ?_
    exact Function.update_of_ne (Ne.symm hne) _ _

/-- An address to which only one value is stored, holds this value. -/
theorem storeAll_of_mem {stores : List (Address×Value)} {address : Address} {value : Value}
    (hmem : (address,value)∈stores) (h : ∀ store∈stores,store.1=address → store.2=value)
    (memory : Address → Value) : storeAll memory stores address=value := by
  induction stores generalizing memory with
  | nil => cases hmem
  | cons store stores ih =>
    by_cases hrest : (address,value)∈stores
    · exact ih hrest (fun other hother => h other (List.mem_cons_of_mem _ hother)) _
    · cases List.mem_cons.mp hmem with
      | inl heq =>
        rw [←heq]
        have hnone : ∀ other∈stores,other.1≠address := by
          intro other hother haddress
          have hvalue := h other (List.mem_cons_of_mem _ hother) haddress
          rw [←haddress,←hvalue] at hrest
          exact hrest hother
        refine (storeAll_of_notMem hnone _).trans ?_
        exact Function.update_self _ _ _
      | inr hmem => exact absurd hmem hrest

end StoreLog
