import Mathlib.Logic.Relation
import TinyArm.Proofs.Registers

/-!
# The machine

A machine with a program counter, the frame pointer `x29`, the link register `x30` and a stack in memory. It runs an
assembly whose instructions are numbered one after another, so the code of a function starts at its `entryPoint?`.

The functions that are active are kept beside the machine: a call adds one, a return takes one off. `Advances` is a
step that is taken inside of the block of the innermost one, so a run of such steps never leaves a block but by a call
or a return.

* `Assembly.Stands`: where code stands; the block of a function stands at its entry (`Assembly.exists_entryPoint?`).
* `Machine.Keeps`: what stays as it was over a call.
* `Advances.unique`: there is one way to go on.
* `Passes`, `Returns`: code that runs to its end, and functions that come back, with all of that kept.
* `Encodes.passes`: **the code of an expression runs to its end** if what it calls returns.
-/

namespace TinyArm

/-! ## Code in its place -/

namespace Assembly

/-- The instructions of all blocks, in order. -/
def code (a : Assembly) : List Instruction := a.flatMap Block.code

/-- The instruction at a place. -/
def fetch? (a : Assembly) (pc : Int) : Option Instruction := if 0 ≤ pc then a.code[pc.toNat]? else none

/-- Where the code of a function starts. -/
def entryPoint? : Assembly → String → Option Int
  | [], _ => none
  | b :: rest, name => if b.name = name then some 0 else (entryPoint? rest name).map (b.code.length + ·)

/-- A place inside of the block of a function. -/
def InBlock (a : Assembly) (f : String) (pc : Int) : Prop :=
  ∃ before b after, a = before ++ b :: after ∧ b.name = f ∧ (code before).length ≤ pc ∧
    pc < (code before).length + b.code.length

/-- Code that stands at a place inside of the block of a function. -/
def Stands (a : Assembly) (f : String) (pc : Int) (c : List Instruction) : Prop :=
  ∃ before b after l r, a = before ++ b :: after ∧ b.name = f ∧ b.code = l ++ (c ++ r) ∧
    pc = ((code before ++ l).length : Int)

variable {a : Assembly} {f : String} {pc : Int} {i : Instruction} {c d : List Instruction}

theorem fetch?_natCast (a : Assembly) (n : Nat) : a.fetch? n = a.code[n]? := by
  rw [fetch?, if_pos (Int.natCast_nonneg n), Int.toNat_natCast]

theorem Stands.left (h : a.Stands f pc (c ++ d)) : a.Stands f pc c := by
  obtain ⟨before, b, after, l, r, ha, hf, hb, hp⟩ := h
  exact ⟨before, b, after, l, d ++ r, ha, hf, by rw [hb, List.append_assoc], hp⟩

theorem Stands.right (h : a.Stands f pc (c ++ d)) : a.Stands f (pc + c.length) d := by
  obtain ⟨before, b, after, l, r, ha, hf, hb, hp⟩ := h
  refine ⟨before, b, after, l ++ c, r, ha, hf, ?_, ?_⟩
  · rw [hb, List.append_assoc, List.append_assoc]
  · simp only [hp, List.length_append]
    omega

theorem Stands.tail (h : a.Stands f pc (i :: c)) : a.Stands f (pc + 1) c :=
  Stands.right (c := [i]) h

theorem Stands.inBlock (h : a.Stands f pc (i :: c)) : a.InBlock f pc := by
  obtain ⟨before, b, after, l, r, ha, hf, hb, hp⟩ := h
  refine ⟨before, b, after, ha, hf, ?_, ?_⟩
  · rw [hp, List.length_append]
    omega
  · rw [hp, hb]
    simp only [List.length_append, List.length_cons]
    omega

/-- What stands at a place is fetched there. -/
theorem Stands.fetch? (h : a.Stands f pc (i :: c)) : a.fetch? pc = some i := by
  obtain ⟨before, b, after, l, r, rfl, hf, hb, rfl⟩ := h
  have hcode : code (before ++ b :: after) = code before ++ l ++ i :: (c ++ r ++ code after) := by
    simp [code, hb]
  rw [fetch?_natCast, hcode, List.getElem?_append_right (Nat.le_refl _), Nat.sub_self]
  rfl

theorem entryPoint?_append {before after : Assembly} {b : Block} (h : ∀ x ∈ before, x.name ≠ b.name) :
    entryPoint? (before ++ b :: after) b.name = some ((code before).length : Int) := by
  induction before with
  | nil => simp [entryPoint?, code]
  | cons x before ih =>
    rw [List.forall_mem_cons] at h
    rw [List.cons_append, entryPoint?, if_neg h.1, ih h.2]
    simp [code]

/-- With names of their own, the block of a function stands where the function starts. -/
theorem exists_entryPoint? (hn : (a.map Block.name).Nodup) {b : Block} (hb : b ∈ a) :
    ∃ pc, a.entryPoint? b.name = some pc ∧ a.Stands b.name pc b.code := by
  obtain ⟨before, after, rfl⟩ := List.append_of_mem hb
  have hne : ∀ x ∈ before, x.name ≠ b.name := by
    intro x hx
    rw [List.map_append, List.nodup_append] at hn
    exact hn.2.2 _ (List.mem_map_of_mem hx) _ (List.mem_map_of_mem List.mem_cons_self)
  refine ⟨_, entryPoint?_append hne, before, b, after, [], [], rfl, rfl, by simp, by simp⟩

end Assembly

/-! ## Steps -/

/-- A state of the machine. Words are integers; `memory` has the word at each address. -/
structure Machine where
  pc : Int
  registers : Registers
  /-- The register `x29`. -/
  frame : Int
  /-- The register `x30`. -/
  link : Int
  sp : Int
  memory : Int → Int

namespace Machine

/-- Saves the frame pointer and the link register below the stack pointer. -/
def push (m : Machine) : Machine :=
  { m with
    sp := m.sp - 16
    memory := Function.update (Function.update m.memory (m.sp - 16) m.frame) (m.sp - 8) m.link }

/-- Takes the frame pointer and the link register from the stack. -/
def pop (m : Machine) : Machine :=
  { m with frame := m.memory m.sp, link := m.memory (m.sp + 8), sp := m.sp + 16 }

/-- Goes on to the next instruction. -/
def next (m : Machine) : Machine := { m with pc := m.pc + 1 }

/-- What an instruction does. -/
def execute (a : Assembly) (m : Machine) : Instruction → Option Machine
  | .save => some m.push.next
  | .restore => some m.pop.next
  | .call g => (a.entryPoint? g).map fun p => { m with link := m.pc + 1, pc := p }
  | .ret => some { m with pc := m.link }
  | i => i.compute?.map fun f => { m with registers := f m.registers }.next

/-- What stays as it was: the stack pointer, the frame pointer, and the words from the stack pointer on. -/
structure Keeps (m m' : Machine) : Prop where
  sp : m'.sp = m.sp
  frame : m'.frame = m.frame
  memory : ∀ p, m.sp ≤ p → m'.memory p = m.memory p

theorem Keeps.refl (m : Machine) : m.Keeps m := ⟨rfl, rfl, fun _ _ => rfl⟩

theorem Keeps.trans {m₁ m₂ m₃ : Machine} (h : m₁.Keeps m₂) (h' : m₂.Keeps m₃) : m₁.Keeps m₃ := by
  refine ⟨h'.sp.trans h.sp, h'.frame.trans h.frame, fun p hp => ?_⟩
  rw [h'.memory p (by rw [h.sp]; exact hp), h.memory p hp]

theorem push_memory_link (m : Machine) : m.push.memory (m.sp - 8) = m.link := Function.update_self _ _ _

theorem push_memory_frame (m : Machine) : m.push.memory (m.sp - 16) = m.frame := by
  simp only [push]
  rw [Function.update_of_ne (by omega), Function.update_self]

theorem push_memory_of_le (m : Machine) {p : Int} (hp : m.sp ≤ p) : m.push.memory p = m.memory p := by
  simp only [push]
  rw [Function.update_of_ne (by omega), Function.update_of_ne (by omega)]

/-- What is taken from the stack is what was put there, if it was kept in between. -/
theorem Keeps.pop {m m' : Machine} (h : m.push.Keeps m') : m'.pop.link = m.link ∧ m.Keeps m'.pop := by
  have hsp : m'.sp = m.sp - 16 := h.sp
  have hmem : ∀ p, m.sp - 16 ≤ p → m'.memory p = m.push.memory p := h.memory
  constructor
  · have h8 : m.sp - 16 + 8 = m.sp - 8 := by omega
    simp only [Machine.pop]
    rw [hsp, h8, hmem _ (by omega), push_memory_link]
  · constructor
    · simp only [Machine.pop]
      omega
    · simp only [Machine.pop]
      rw [hsp, hmem _ (Int.le_refl _), push_memory_frame]
    · intro p hp
      simp only [Machine.pop]
      rw [hmem p (by omega), push_memory_of_le m hp]

end Machine

/-- The functions that are active after an instruction, the innermost first. -/
def active : Instruction → List String → List String
  | .call g, fs => g :: fs
  | .ret, fs => fs.tail
  | _, fs => fs

/-- **A step inside of the block of the innermost active function.** -/
inductive Advances (a : Assembly) : List String × Machine → List String × Machine → Prop where
  | intro {f fs m i m'} : a.InBlock f m.pc → a.fetch? m.pc = some i → m.execute a i = some m' →
      Advances a (f :: fs, m) (active i (f :: fs), m')

/-- The machine goes on in one way only. -/
theorem Advances.unique {a : Assembly} {x y z : List String × Machine} (h : Advances a x y) (h' : Advances a x z) :
    y = z := by
  obtain ⟨-, hf, he⟩ := h
  cases h' with
  | intro _ hf' he' =>
    rw [hf] at hf'
    cases hf'
    rw [he] at he'
    cases he'
    rfl

theorem Assembly.Stands.advances {a : Assembly} {f : String} {m m' : Machine} {i : Instruction} {c : List Instruction}
    (h : a.Stands f m.pc (i :: c)) (he : m.execute a i = some m') (fs : List String) :
    Advances a (f :: fs, m) (active i (f :: fs), m') :=
  .intro h.inBlock h.fetch? he

/-! ## Code that runs to its end -/

/-- Code that runs to its end wherever it stands, with the link register and all that a call keeps as they were. -/
def Passes (a : Assembly) (c : List Instruction) : Prop :=
  ∀ f fs m, a.Stands f m.pc c → ∃ m', Relation.ReflTransGen (Advances a) (f :: fs, m) (f :: fs, m') ∧
    m'.pc = m.pc + c.length ∧ m'.link = m.link ∧ m.Keeps m'

/-- A function that comes back to where it was called from. -/
def Returns (a : Assembly) (f : String) : Prop :=
  ∃ p, a.entryPoint? f = some p ∧ ∀ fs m, m.pc = p → ∃ m', Relation.ReflTransGen (Advances a) (f :: fs, m) (fs, m') ∧
    m'.pc = m.link ∧ m.Keeps m'

section Passes

variable {a : Assembly} {c d : List Instruction}

theorem passes_nil : Passes a [] := fun _ _ m _ => ⟨m, .refl, by simp, rfl, .refl m⟩

theorem Passes.append (hc : Passes a c) (hd : Passes a d) : Passes a (c ++ d) := by
  intro f fs m h
  obtain ⟨m₁, hr₁, hp₁, hl₁, hk₁⟩ := hc f fs m h.left
  have hs : a.Stands f m₁.pc d := by
    rw [hp₁]
    exact h.right
  obtain ⟨m₂, hr₂, hp₂, hl₂, hk₂⟩ := hd f fs m₁ hs
  refine ⟨m₂, hr₁.trans hr₂, ?_, hl₂.trans hl₁, hk₁.trans hk₂⟩
  rw [hp₂, hp₁, List.length_append]
  omega

/-- An instruction that computes goes on to the next one. -/
theorem passes_of_compute? {i : Instruction} {f : Registers → Registers} (h : i.compute? = some f) :
    Passes a [i] := by
  intro g fs m hs
  have he : m.execute a i = some { m with registers := f m.registers }.next := by
    cases i <;> simp_all [Machine.execute, Instruction.compute?]
  have ha : active i (g :: fs) = g :: fs := by
    cases i <;> simp_all [active, Instruction.compute?]
  have hr := hs.advances he fs
  rw [ha] at hr
  exact ⟨_, .single hr, rfl, rfl, rfl, rfl, fun _ _ => rfl⟩

/-- **A call** restores what it has saved around it. -/
theorem Returns.passes {g : String} (h : Returns a g) : Passes a (callCode g) := by
  intro f fs m hs
  obtain ⟨p, hp, hret⟩ := h
  let m₁ := m.push.next
  let m₂ : Machine := { m₁ with link := m₁.pc + 1, pc := p }
  have hsave : Advances a (f :: fs, m) (f :: fs, m₁) := hs.advances rfl fs
  have hcall : Advances a (f :: fs, m₁) (g :: f :: fs, m₂) := by
    have hs₁ : a.Stands f m₁.pc [.call g, .restore] := hs.tail
    refine hs₁.advances ?_ fs
    rw [Machine.execute, hp]
    rfl
  obtain ⟨m₃, hbody, hpc, hk⟩ := hret (f :: fs) m₂ rfl
  have hs₃ : a.Stands f m₃.pc [.restore] := by
    rw [hpc]
    exact hs.tail.tail
  have hrestore : Advances a (f :: fs, m₃) (f :: fs, m₃.pop.next) := hs₃.advances rfl fs
  have hpush : m.push.Keeps m₃ := ⟨hk.sp, hk.frame, hk.memory⟩
  obtain ⟨hlink, hkeeps⟩ := hpush.pop
  refine ⟨m₃.pop.next, ?_, ?_, hlink, hkeeps.sp, hkeeps.frame, hkeeps.memory⟩
  · exact .tail (.trans (.head hsave (.single hcall)) hbody) hrestore
  · have hnext : m₃.pop.next.pc = m₃.pc + 1 := rfl
    have hlen : (callCode g).length = 3 := rfl
    have hret : m₂.link = m.pc + 1 + 1 := rfl
    omega

/-- **The code of an expression runs to its end** if what it calls returns. -/
theorem Encodes.passes {e : Tree} (h : Encodes e c) (hg : ∀ g, .call g ∈ c → Returns a g) : Passes a c := by
  induction h with
  | number loc n =>
    unfold loadCode
    split
    · exact passes_of_compute? rfl
    · exact (passes_of_compute? rfl).append (passes_of_compute? rfl)
  | call loc g => exact (hg g (by simp [callCode])).passes
  | binary loc op _ _ ihl ihr =>
    have hr := ihr fun g hm => hg g (List.mem_append_left _ hm)
    have hl := ihl fun g hm => hg g (List.mem_append_right _ (List.mem_cons_of_mem _ (List.mem_append_left _ hm)))
    have hop : Passes a [.combine op] := passes_of_compute? rfl
    exact hr.append ((passes_of_compute? (i := .keep) rfl).append (hl.append hop))

end Passes

end TinyArm
