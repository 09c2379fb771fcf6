import Relabel.Proofs.Constant.Codec

/-!
# Pools that calls can lead to

A pool starts empty or is read from bytes, and then changes by calls, some of which may fail halfway. As
long as no call puts an unusable constant in, every pool on the way is well-formed.
-/

set_option autoImplicit false

namespace Relabel

/-- A call that may change a pool. -/
inductive PoolCall where
  | push (k : Constant)
  | intern (k : Constant)
  | internUtf8 (s : String)
  | internClass (name : String)
  | internNameAndType (name descriptor : String)
  | internMember (kind : MemberKind) (owner name descriptor : String)
  | set (i : UInt16) (k : Constant)

namespace PoolCall

/-- The pool after a call, whether or not it succeeded. -/
def run (p : Pool) : PoolCall → Pool
  | .push k => (Pool.push k).after p
  | .intern k => (Pool.intern k).after p
  | .internUtf8 s => (Pool.internUtf8 s).after p
  | .internClass name => (Pool.internClass name).after p
  | .internNameAndType name descriptor => (Pool.internNameAndType name descriptor).after p
  | .internMember kind owner name descriptor => (Pool.internMember kind owner name descriptor).after p
  | .set i k => (Pool.set i k).after p

/-- A call does not hand over an unusable constant. -/
def Usable : PoolCall → Prop
  | .push k | .intern k | .set _ k => k ≠ .unusable
  | _ => True

end PoolCall

namespace Pool

/-- A pool that was new or read, after any usable calls. -/
inductive Reachable : Pool → Prop where
  | empty : Reachable .empty
  | read {p : Pool} {c c' : Cursor} : decode c = .ok (p, c') → Reachable p
  | call {p : Pool} (call : PoolCall) : Reachable p → call.Usable → Reachable (call.run p)

theorem WellFormed.push {k : Constant} (hk : k ≠ .unusable) (p : Pool) (hp : p.WellFormed) :
    ((push k).after p).WellFormed := by
  unfold Effect.after Pool.push
  split
  · next h =>
    split at h
    · cases h
    · next hsize =>
      obtain ⟨-, rfl⟩ := EStateM.Result.ok.inj h
      obtain ⟨⟨slots, hslots, hlaid⟩, -⟩ := hp
      refine ⟨⟨slots ++ if k.isWide then [k, .unusable] else [k], ?_, hlaid.append (laidOut_slots hk)⟩, ?_⟩
      · rw [toList_appendSlots, hslots]
        rfl
      · have hlen : (appendSlots p.slots k).size = p.slots.size + k.width := by
          unfold appendSlots Constant.width
          split <;> simp
        rw [hlen]
        omega
  · next h =>
    split at h
    · obtain ⟨-, rfl⟩ := EStateM.Result.error.inj h
      exact hp
    · cases h

theorem WellFormed.intern {k : Constant} (hk : k ≠ .unusable) (p : Pool) (hp : p.WellFormed) :
    ((intern k).after p).WellFormed := by
  have hpush := hp.push hk
  unfold Effect.after Pool.intern
  cases hi : p.index[k]? with
  | some i => exact hp
  | none => exact hpush

theorem WellFormed.set {k : Constant} (hk : k ≠ .unusable) (i : UInt16) (p : Pool) (hp : p.WellFormed) :
    ((set i k).after p).WellFormed := by
  unfold Effect.after Pool.set
  cases hget : p.get i with
  | error e => exact hp
  | ok old =>
    by_cases hwide : (old.isWide != k.isWide) = true
    · simp only [if_pos hwide]
      exact hp
    · simp only [if_neg hwide]
      obtain ⟨hold, husable⟩ := get_eq_ok.mp hget
      obtain ⟨⟨slots, hslots, hlaid⟩, hsize⟩ := hp
      rw [← Array.getElem?_toList, hslots] at hold
      -- Slot 0 is unusable, so the slot that is replaced stands behind it.
      obtain ⟨j, hj⟩ : ∃ j, i.toNat = j + 1 := by
        refine Nat.exists_eq_succ_of_ne_zero fun hzero => ?_
        rw [hzero] at hold
        exact husable (Option.some.inj hold).symm
      rw [hj, List.getElem?_cons_succ] at hold
      refine ⟨⟨slots.set j k, ?_, ?_⟩, by simpa using hsize⟩
      · simp [hslots, hj]
      · exact hlaid.set hold husable hk (by simpa using hwide)

theorem WellFormed.internUtf8 (s : String) (p : Pool) (hp : p.WellFormed) :
    ((internUtf8 s).after p).WellFormed :=
  hp.intern (by simp)

theorem WellFormed.internClass (name : String) (p : Pool) (hp : p.WellFormed) :
    ((internClass name).after p).WellFormed :=
  Effect.keeps_bind (WellFormed.internUtf8 name) (fun _ => WellFormed.intern (by simp)) p hp

theorem WellFormed.internNameAndType (name descriptor : String) (p : Pool) (hp : p.WellFormed) :
    ((internNameAndType name descriptor).after p).WellFormed :=
  Effect.keeps_bind (WellFormed.internUtf8 name)
    (fun _ => Effect.keeps_bind (WellFormed.internUtf8 descriptor)
      fun _ => WellFormed.intern (by simp)) p hp

theorem WellFormed.internMember (kind : MemberKind) (owner name descriptor : String) (p : Pool)
    (hp : p.WellFormed) : ((internMember kind owner name descriptor).after p).WellFormed :=
  Effect.keeps_bind (WellFormed.internClass owner)
    (fun _ => Effect.keeps_bind (WellFormed.internNameAndType name descriptor)
      fun _ => WellFormed.intern (by simp)) p hp

/-- One call keeps a pool well-formed. -/
theorem WellFormed.run {p : Pool} (hp : p.WellFormed) {call : PoolCall} (hcall : call.Usable) :
    (call.run p).WellFormed := by
  cases call with
  | push k => exact hp.push hcall
  | intern k => exact hp.intern hcall
  | internUtf8 s => exact hp.internUtf8 s
  | internClass name => exact hp.internClass name
  | internNameAndType name descriptor => exact hp.internNameAndType name descriptor
  | internMember kind owner name descriptor => exact hp.internMember kind owner name descriptor
  | set i k => exact hp.set hcall i

/-- **Every pool that usable calls can lead to is well-formed.** -/
theorem Reachable.wellFormed {p : Pool} (h : p.Reachable) : p.WellFormed := by
  induction h with
  | empty => exact wellFormed_empty
  | read hread => exact (between_of_decode hread).1
  | call call _ hcall ih => exact ih.run hcall

end Pool

end Relabel
