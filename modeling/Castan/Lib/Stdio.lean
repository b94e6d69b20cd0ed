/-
# Binary files

`fread` and `fwrite` of the C library on one open file whose operations never fail, together with
rules for programs that read and write a file from its front to its end.

A program ends normally, or with an error it reports itself, or by writing past the end of a block
of memory.  `Writes` and `Reads` say what a program appends to a file and what it finds there;
`Ensures` says what is known once a program ended normally.
-/
import Mathlib

namespace Castan

open List

variable {size nmemb capacity : ℕ}

abbrev Byte := BitVec 8

variable {bytes : List Byte}

/-- An open file: its bytes and the position of the next operation. -/
structure FILE where
  data : List Byte
  pos : ℕ
deriving DecidableEq

/-- A freshly created file. -/
def FILE.empty : FILE := ⟨[], 0⟩

/-- The same file opened again. -/
def FILE.reopen (f : FILE) : FILE := { f with pos := 0 }

/-- The bytes from the position on, at most `limit` of them. -/
def FILE.next (f : FILE) (limit : ℕ) : List Byte := (f.data.drop f.pos).take limit

/-- How a program on a file may stop. -/
inductive Fault where
  /-- The program noticed an error. -/
  | error
  /-- A write past the end of a block of memory. -/
  | overflow
deriving DecidableEq

/-- Programs on one file. -/
abbrev Stdio := ExceptT Fault (StateM FILE)

namespace Stdio

variable {α β : Type}

/-- The outcome of a program and the file it leaves. -/
def exec (m : Stdio α) (f : FILE) : Except Fault α × FILE := StateT.run (ExceptT.run m) f

/-- Continue only if a check succeeded. -/
def check (b : Bool) : Stdio Unit := if b then pure () else throw .error

/-- A store into a block of memory of `capacity` bytes. -/
def inBlock (capacity last : ℕ) : Stdio Unit :=
  if last ≤ capacity then pure () else throw .overflow

/-- `fwrite`: the number of items transferred. -/
def fwrite (ptr : List Byte) (size nmemb : ℕ) : Stdio ℕ := do
  if size = 0 ∨ nmemb = 0 then pure 0
  else
    let f ← get
    let block := ptr.take (size * nmemb)
    set (FILE.mk (f.data.take f.pos ++ block ++ f.data.drop (f.pos + block.length))
      (f.pos + block.length))
    pure nmemb

/-- What `fread` transferred, of at most `limit` bytes. -/
structure Transfer (limit : ℕ) where
  bytes : List Byte
  /-- The number of whole items. -/
  items : ℕ
  length_le : bytes.length ≤ limit

/-- `fread` into a block of `capacity` bytes. -/
def fread (capacity size nmemb : ℕ) : Stdio (Transfer (size * nmemb)) := do
  if size = 0 ∨ nmemb = 0 then pure ⟨[], 0, Nat.zero_le _⟩
  else
    let f ← get
    let block := f.next (size * nmemb)
    inBlock capacity block.length
    set { f with pos := f.pos + block.length }
    pure ⟨block, block.length / size, length_take_le _ _⟩

/-- Run a program `n` times. -/
def times : (n : ℕ) → Stdio α → Stdio (List.Vector α n)
  | 0, _ => pure List.Vector.nil
  | n + 1, m => do
      let a ← m
      let as ← times n m
      pure (a ::ᵥ as)

/-- Run a program for each element of a list. -/
def each (xs : List α) (m : α → Stdio Unit) : Stdio Unit :=
  match xs with
  | [] => pure ()
  | x :: xs => do
      m x
      each xs m

/-! ### Execution -/

@[simp] lemma exec_pure (a : α) (f : FILE) : exec (pure a) f = (.ok a, f) := rfl

lemma exec_bind (m : Stdio α) (k : α → Stdio β) (f : FILE) : exec (m >>= k) f = match exec m f with
      | (.ok a, f') => exec (k a) f'
      | (.error e, f') => (.error e, f') := by
  simp only [exec, ExceptT.run_bind, StateT.run_bind]
  rcases StateT.run (ExceptT.run m) f with ⟨_ | _, _⟩ <;> rfl

lemma exec_bind_of_ok {m : Stdio α} {k : α → Stdio β} {f f' : FILE} {a : α}
    (h : exec m f = (.ok a, f')) : exec (m >>= k) f = exec (k a) f' := by
  rw [exec_bind, h]

lemma exec_fwrite {ptr : List Byte} (h : ¬ (size = 0 ∨ nmemb = 0)) (f : FILE) :
    exec (fwrite ptr size nmemb) f = (.ok nmemb, ⟨f.data.take f.pos ++ ptr.take (size * nmemb) ++
        f.data.drop (f.pos + (ptr.take (size * nmemb)).length),
        f.pos + (ptr.take (size * nmemb)).length⟩) := by
  unfold fwrite
  rw [if_neg h]
  rfl

lemma exec_fread (h : ¬ (size = 0 ∨ nmemb = 0)) (f : FILE)
    (hcap : (f.next (size * nmemb)).length ≤ capacity) :
    exec (fread capacity size nmemb) f =
      (.ok ⟨f.next (size * nmemb), (f.next (size * nmemb)).length / size, length_take_le _ _⟩,
        { f with pos := f.pos + (f.next (size * nmemb)).length }) := by
  have hget : exec (get : Stdio FILE) f = (.ok f, f) := rfl
  have hblock : exec (inBlock capacity (f.next (size * nmemb)).length) f = (.ok (), f) := by
    rw [inBlock, if_pos hcap, exec_pure]
  unfold fread
  rw [if_neg h, exec_bind_of_ok hget, exec_bind_of_ok hblock]
  rfl

/-! ### What a program appends -/

/-- At the end of any file the program appends `bytes` and returns `a`. -/
def Writes (m : Stdio α) (bytes : List Byte) (a : α) : Prop :=
  ∀ data, exec m ⟨data, data.length⟩ = (.ok a, ⟨data ++ bytes, (data ++ bytes).length⟩)

lemma Writes.pure (a : α) : Writes (Pure.pure a) [] a := by
  intro data
  simp

lemma Writes.bind {m : Stdio α} {k : α → Stdio β} {bytes' : List Byte} {a : α} {b : β}
    (hm : Writes m bytes a) (hk : Writes (k a) bytes' b) :
    Writes (m >>= k) (bytes ++ bytes') b := by
  intro data
  rw [exec_bind_of_ok (hm data), hk (data ++ bytes), append_assoc]

/-- A last step that appends nothing. -/
lemma Writes.bind_last {m : Stdio α} {k : α → Stdio β} {a : α} {b : β}
    (hm : Writes m bytes a) (hk : Writes (k a) [] b) : Writes (m >>= k) bytes b := by
  rw [← append_nil bytes]
  exact hm.bind hk

lemma Writes.check {b : Bool} (h : b = true) : Writes (check b) [] () := by
  intro data
  subst h
  simp [Stdio.check]

lemma Writes.fwrite {ptr : List Byte} (h : ¬ (size = 0 ∨ nmemb = 0)) :
    Writes (fwrite ptr size nmemb) (ptr.take (size * nmemb)) nmemb := by
  intro data
  rw [exec_fwrite h]
  simp

lemma Writes.each {xs : List α} {m : α → Stdio Unit} {bytes : α → List Byte}
    (h : ∀ x ∈ xs, Writes (m x) (bytes x) ()) : Writes (each xs m) (xs.flatMap bytes) () := by
  induction xs with
  | nil => exact Writes.pure ()
  | cons x xs ih =>
    rw [flatMap_cons]
    exact (h x (by simp)).bind (ih fun y hy => h y (by simp [hy]))

/-! ### What a program finds -/

/-- Where a file continues with `bytes`, the program consumes them and returns `a`. -/
def Reads (m : Stdio α) (bytes : List Byte) (a : α) : Prop :=
  ∀ before after, exec m ⟨before ++ bytes ++ after, before.length⟩ =
    (.ok a, ⟨before ++ bytes ++ after, (before ++ bytes).length⟩)

lemma Reads.pure (a : α) : Reads (Pure.pure a) [] a := by
  intro before after
  simp

lemma Reads.bind {m : Stdio α} {k : α → Stdio β} {bytes' : List Byte} {a : α} {b : β}
    (hm : Reads m bytes a) (hk : Reads (k a) bytes' b) :
    Reads (m >>= k) (bytes ++ bytes') b := by
  intro before after
  have h₁ := hm before (bytes' ++ after)
  have h₂ := hk (before ++ bytes) after
  simp only [append_assoc] at h₁ h₂ ⊢
  rw [exec_bind_of_ok h₁, h₂]

/-- A step that consumes nothing. -/
lemma Reads.bind_nil {m : Stdio α} {k : α → Stdio β} {a : α} {b : β}
    (hm : Reads m [] a) (hk : Reads (k a) bytes b) : Reads (m >>= k) bytes b :=
  hm.bind hk

/-- A last step that consumes nothing. -/
lemma Reads.bind_last {m : Stdio α} {k : α → Stdio β} {a : α} {b : β}
    (hm : Reads m bytes a) (hk : Reads (k a) [] b) : Reads (m >>= k) bytes b := by
  rw [← append_nil bytes]
  exact hm.bind hk

lemma Reads.check {b : Bool} (h : b = true) : Reads (check b) [] () := by
  intro before after
  subst h
  simp [Stdio.check]

lemma Reads.inBlock {last : ℕ} (h : last ≤ capacity) : Reads (inBlock capacity last) [] () := by
  intro before after
  simp [Stdio.inBlock, h]

lemma Reads.fread (h : ¬ (size = 0 ∨ nmemb = 0))
    (hlen : bytes.length = size * nmemb) (hcap : bytes.length ≤ capacity) :
    Reads (fread capacity size nmemb) bytes ⟨bytes, nmemb, hlen.le⟩ := by
  intro before after
  have hnext : FILE.next ⟨before ++ bytes ++ after, before.length⟩ (size * nmemb) = bytes := by
    rw [FILE.next, append_assoc, drop_left, ← hlen, take_left]
  have hdiv : bytes.length / size = nmemb := by
    rw [hlen]
    exact Nat.mul_div_cancel_left _ (by omega)
  rw [exec_fread h _ (by rw [hnext]; exact hcap), length_append]
  simp only [hnext, hdiv]

lemma Reads.times {m : Stdio α} {bytes : α → List Byte} {as : List α} {n : ℕ}
    (hn : as.length = n) (h : ∀ a ∈ as, Reads m (bytes a) a) :
    Reads (times n m) (as.flatMap bytes) ⟨as, hn⟩ := by
  subst hn
  induction as with
  | nil => exact Reads.pure _
  | cons a as ih =>
    rw [flatMap_cons]
    refine (h a (by simp)).bind ?_
    exact (ih fun b hb => h b (by simp [hb])).bind_last (Reads.pure _)

/-! ### What is known after a normal end -/

/-- Whatever the file, a result of the program satisfies `P`. -/
def Ensures (m : Stdio α) (P : α → Prop) : Prop :=
  ∀ f a f', exec m f = (.ok a, f') → P a

lemma Ensures.of_forall {m : Stdio α} {P : α → Prop} (h : ∀ a, P a) : Ensures m P :=
  fun _ a _ _ => h a

lemma Ensures.bind {m : Stdio α} {k : α → Stdio β} {P : α → Prop} {Q : β → Prop}
    (hm : Ensures m P) (hk : ∀ a, P a → Ensures (k a) Q) : Ensures (m >>= k) Q := by
  intro f b f' h
  rw [exec_bind] at h
  rcases hr : exec m f with ⟨_ | a, g⟩
  · rw [hr] at h
    cases h
  · rw [hr] at h
    exact hk a (hm f a g hr) g b f' h

/-- A first step about which nothing has to be known. -/
lemma Ensures.skip {m : Stdio α} {k : α → Stdio β} {Q : β → Prop}
    (hk : ∀ a, Ensures (k a) Q) : Ensures (m >>= k) Q :=
  (Ensures.of_forall (P := fun _ => True) fun _ => trivial).bind fun a _ => hk a

lemma Ensures.pure {a : α} {P : α → Prop} (h : P a) : Ensures (Pure.pure a) P := by
  intro f b f' hb
  rw [exec_pure] at hb
  cases hb
  exact h

lemma Ensures.inBlock (capacity last : ℕ) :
    Ensures (inBlock capacity last) fun _ => last ≤ capacity := by
  intro f u f' h
  by_cases hle : last ≤ capacity
  · exact hle
  · rw [Stdio.inBlock, if_neg hle] at h
    cases h

lemma Ensures.fwrite_zero (ptr : List Byte) (nmemb : ℕ) :
    Ensures (fwrite ptr 0 nmemb) fun n => n = 0 := by
  intro f n f' h
  rw [fwrite, if_pos (Or.inl rfl), exec_pure] at h
  cases h
  rfl

lemma Ensures.each {xs : List α} {m : α → Stdio Unit} {P : α → Prop}
    (h : ∀ x ∈ xs, Ensures (m x) fun _ => P x) :
    Ensures (each xs m) fun _ => ∀ x ∈ xs, P x := by
  induction xs with
  | nil => exact .of_forall (by simp)
  | cons x xs ih =>
    refine (h x (by simp)).bind fun _ hx => ?_
    intro f u f' hrun
    have hxs := ih (fun y hy => h y (by simp [hy])) f u f' hrun
    exact forall_mem_cons.2 ⟨hx, hxs⟩

lemma Ensures.times {m : Stdio α} {P : α → Prop} (h : Ensures m P) (n : ℕ) :
    Ensures (times n m) fun as => ∀ a ∈ as.toList, P a := by
  induction n with
  | zero => exact .pure (by simp)
  | succ n ih =>
    refine h.bind fun a ha => ih.bind fun as has => .pure ?_
    rw [List.Vector.toList_cons]
    exact forall_mem_cons.2 ⟨ha, has⟩

end Stdio

end Castan
