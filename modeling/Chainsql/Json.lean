import Chainsql.Evm.Word
import Mathlib.Data.Rat.Defs

/-!
# JSON values

`Json::Value` as the reader builds it. Integers are stored with 64 bits, the members of an object are
kept in the order of their names. An access that is only guarded by an assertion is undefined where the
assertion fails.
-/

namespace Chainsql

open Evm (Crash)

inductive Json where
  | null
  | int (value : Int64)
  | uint (value : UInt64)
  | real (value : Rat)
  | string (value : String)
  | bool (value : Bool)
  | array (values : List Json)
  | object (members : List (String × Json))

namespace Json

def minInt : Int := -2 ^ 31

def maxInt : Int := 2 ^ 31 - 1

def digits (cs : List Char) : Option Nat :=
  if !cs.isEmpty && cs.all Char.isDigit then some (cs.foldl (fun n c => 10 * n + (c.toNat - '0'.toNat)) 0)
  else none

/-- `beast::lexicalCastThrow<int>`. -/
def lexicalCast (s : String) : Except Crash Int32 :=
  let value : Option Int :=
    match s.toList with
    | '-' :: cs => (digits cs).map fun n => -n
    | '+' :: cs => (digits cs).map fun n => n
    | cs => (digits cs).map fun n => n
  match value with
  | some i => if minInt ≤ i ∧ i ≤ maxInt then .ok (.ofInt i) else .error .exception
  | none => .error .exception

/-- An integer is cut to 32 bits without a check of its range. -/
def asInt : Json → Except Crash Int32
  | null => .ok 0
  | int value => .ok value.toInt32
  | uint value => if (value.toNat : Int) < maxInt then .ok (.ofNat value.toNat) else .error .exception
  | real value =>
    if (minInt : Rat) ≤ value ∧ value ≤ (maxInt : Rat) then .ok (.ofInt (value.num.tdiv value.den))
    else .error .exception
  | bool value => .ok (if value then 1 else 0)
  | string value => lexicalCast value
  | array _ => .error .exception
  | object _ => .error .exception

def lookup (key : String) : List (String × Json) → Option Json
  | [] => none
  | (k, v) :: members => if k = key then some v else lookup key members

def insert (key : String) (value : Json) : List (String × Json) → List (String × Json)
  | [] => [(key, value)]
  | (k, v) :: members =>
    if k = key then (k, value) :: members
    else if key < k then (key, value) :: (k, v) :: members
    else (k, v) :: insert key value members

def isMember (key : String) : Json → Bool
  | object members => (lookup key members).isSome
  | _ => false

/-- `operator[]` on a value that is not constant: the member, and the value that has it then. -/
def resolveReference (key : String) : Json → Except Crash (Json × Json)
  | null => .ok (null, object [(key, null)])
  | object members =>
    match lookup key members with
    | some v => .ok (v, object members)
    | none => .ok (null, object (insert key null members))
  | _ => .error .undefined

def assign (obj : Json) (key : String) (value : Json) : Except Crash Json :=
  match obj with
  | null => .ok (object [(key, value)])
  | object members => .ok (object (insert key value members))
  | _ => .error .undefined

def assignDefault (obj : Json) (key : String) (value : Json) : Except Crash Json :=
  if obj.isMember key then .ok obj else obj.assign key value

variable {key key' : String} {value obj obj' : Json}

theorem lookup_insert_ne {members : List (String × Json)} (h : key' ≠ key) :
    lookup key' (insert key value members) = lookup key' members := by
  induction members with
  | nil => simp [insert, lookup, h.symm]
  | cons m members ih =>
    simp only [insert]
    split
    next hk => simp [lookup, hk, h.symm]
    next =>
      split
      · simp [lookup, h.symm]
      · simp only [lookup, ih]

theorem lookup_insert_self (key : String) (value : Json) (members : List (String × Json)) :
    lookup key (insert key value members) = some value := by
  induction members with
  | nil => simp [insert, lookup]
  | cons m members ih =>
    simp only [insert]
    split
    next hk => simp [lookup, hk]
    next hk =>
      split
      · simp [lookup]
      · simp [lookup, hk, ih]

/-- What reads of the member `key` see of a value. -/
def member (key : String) : Json → Option Json
  | null => some null
  | object members => some ((lookup key members).getD null)
  | _ => none

theorem member_of_resolveReference {v : Json} (h : obj.resolveReference key = .ok (v, obj')) :
    obj.member key = some v ∧ obj'.member key' = obj.member key' ∧ obj'.isMember key := by
  cases obj with
  | null =>
    cases h
    refine ⟨rfl, ?_, by simp [isMember, lookup]⟩
    simp only [member, lookup]
    split <;> rfl
  | object members =>
    simp only [resolveReference] at h
    split at h
    next w hw =>
      cases h
      exact ⟨by simp [member, hw], rfl, by simp [isMember, hw]⟩
    next hw =>
      cases h
      refine ⟨by simp [member, hw], ?_, by simp [isMember, lookup_insert_self]⟩
      by_cases hk : key' = key
      · subst hk
        simp [member, lookup_insert_self, hw]
      · simp [member, lookup_insert_ne hk]
  | _ => cases h

theorem of_assignDefault (hk : key' ≠ key) (h : obj.assignDefault key value = .ok obj') :
    obj'.member key' = obj.member key' ∧ obj'.isMember key' = obj.isMember key' := by
  unfold assignDefault at h
  split at h
  · cases h
    exact ⟨rfl, rfl⟩
  · cases obj with
    | null =>
      cases h
      simp [member, isMember, lookup, hk.symm]
    | object members =>
      cases h
      simp [member, isMember, lookup_insert_ne hk]
    | _ => cases h

/-- The values that a loop over the value visits. -/
def elements : Json → List Json
  | array values => values
  | object members => members.map Prod.snd
  | _ => []

end Json

end Chainsql
