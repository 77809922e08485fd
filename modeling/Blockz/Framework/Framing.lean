import Mathlib.Data.Set.Operations
import Mathlib.Data.List.Basic

/-!
# Frames that delimit themselves

A record is written as a frame, and records are written one after the other with nothing between
them. The stream can be read back if no frame is the beginning of another, in particular if a parser
finds the end of a frame from the frame itself.

* `PrefixFree` — no frame of `s` is the beginning of the frame of an item with other content.
* `PrefixFree.map_content` — two streams that agree as strings agree record by record.
* `Delimits` — the parser takes the frame of every item of `s` off the front of any string, and
  returns its content.
* `Delimits.keyed` — a key of fixed width in front keeps that.
* `Delimits.counted` — so does a list of frames behind their number, in particular a string behind
  its length (`delimits_string`).
* `Delimits.prefixFree` — such frames are not beginnings of one another.
-/

namespace Framing

variable {α β γ κ : Type}

/-- `parse` takes the frames of `s` off the front of a string. -/
def Delimits (parse : List β → Option (γ × List β)) (frame : α → List β) (content : α → γ)
    (s : Set α) : Prop :=
  ∀ a ∈ s, ∀ rest, parse (frame a ++ rest) = some (content a, rest)

/-- A key of `width` symbols, then the rest. -/
def parseKeyed (width : ℕ) (key : List β → κ) (parse : List β → Option (γ × List β))
    (bs : List β) : Option ((κ × γ) × List β) := do
  let (c, rest) ← parse (bs.drop width)
  pure ((key (bs.take width), c), rest)

theorem Delimits.keyed {parse : List β → Option (γ × List β)} {frame : α → List β} {content : α → γ}
    {s : Set α} (h : Delimits parse frame content s) {width : ℕ} {key : List β → κ}
    {write : κ → List β} (hwidth : ∀ k, (write k).length = width)
    (hkey : ∀ k, key (write k) = k) :
    Delimits (parseKeyed width key parse) (fun x : κ × α => write x.1 ++ frame x.2)
      (fun x => (x.1, content x.2)) {x | x.2 ∈ s} := by
  intro ⟨k, a⟩ ha rest
  unfold parseKeyed
  rw [List.append_assoc, List.take_left' (hwidth k), List.drop_left' (hwidth k),
    h a ha rest, hkey]
  rfl

/-- `n` frames, one after the other. -/
def parseMany (parse : List β → Option (γ × List β)) : ℕ → List β → Option (List γ × List β)
  | 0, bs => some ([], bs)
  | n + 1, bs => do
    let (c, rest) ← parse bs
    let (cs, rest) ← parseMany parse n rest
    pure (c :: cs, rest)

theorem Delimits.many {parse : List β → Option (γ × List β)} {frame : α → List β} {content : α → γ}
    {s : Set α} (h : Delimits parse frame content s) (rest : List β) :
    ∀ xs : List α, (∀ a ∈ xs, a ∈ s) →
      parseMany parse xs.length (xs.flatMap frame ++ rest) = some (xs.map content, rest)
  | [], _ => rfl
  | x :: xs, hxs => by
    have htail := h.many rest xs fun a ha => hxs a (List.mem_cons_of_mem _ ha)
    rw [List.length_cons, parseMany, List.flatMap_cons, List.append_assoc,
      h x (hxs x List.mem_cons_self)]
    simp [htail]

/-- A number of `width` symbols, then as many frames. -/
def parseCounted (width : ℕ) (number : List β → ℕ) (parse : List β → Option (γ × List β))
    (bs : List β) : Option (List γ × List β) :=
  parseMany parse (number (bs.take width)) (bs.drop width)

theorem Delimits.counted {parse : List β → Option (γ × List β)} {frame : α → List β}
    {content : α → γ} {s : Set α} (h : Delimits parse frame content s) {width bound : ℕ}
    {number : List β → ℕ} {write : ℕ → List β} (hwidth : ∀ n, (write n).length = width)
    (hnumber : ∀ n < bound, number (write n) = n) :
    Delimits (parseCounted width number parse)
      (fun xs : List α => write xs.length ++ xs.flatMap frame)
      (List.map content) {xs | xs.length < bound ∧ ∀ a ∈ xs, a ∈ s} := by
  rintro xs ⟨hbound, hxs⟩ rest
  unfold parseCounted
  rw [List.append_assoc, List.take_left' (hwidth _), List.drop_left' (hwidth _),
    hnumber _ hbound, h.many rest xs hxs]

/-- A string behind its length: a list of frames of one symbol. -/
theorem delimits_string {width bound : ℕ} {number : List β → ℕ} {write : ℕ → List β}
    (hwidth : ∀ n, (write n).length = width) (hnumber : ∀ n < bound, number (write n) = n) :
    Delimits (parseCounted width number fun bs => bs.head?.map fun b => (b, bs.tail))
      (fun xs : List β => write xs.length ++ xs) id {xs | xs.length < bound} := by
  have hsymbol : Delimits (fun bs : List β => bs.head?.map fun b => (b, bs.tail)) (fun b => [b]) id
      Set.univ := fun _ _ _ => rfl
  intro xs hbound rest
  have hparse := hsymbol.counted hwidth hnumber xs ⟨hbound, fun _ _ => trivial⟩ rest
  simpa only [List.flatMap_singleton', List.map_id, id_eq] using hparse

/-! ### Unique reading -/

/-- The frame of an item is not the beginning of the frame of an item with other content. -/
def PrefixFree (frame : α → List β) (content : α → γ) (s : Set α) : Prop :=
  ∀ a ∈ s, ∀ b ∈ s, frame a <+: frame b → frame a = frame b ∧ content a = content b

theorem Delimits.prefixFree {parse : List β → Option (γ × List β)} {frame : α → List β}
    {content : α → γ} {s : Set α} (h : Delimits parse frame content s) :
    PrefixFree frame content s := by
  rintro a ha b hb ⟨rest, hrest⟩
  have hparse := h a ha rest
  rw [hrest, ← List.append_nil (frame b), h b hb []] at hparse
  obtain ⟨hcontent, hnil⟩ := Prod.mk.inj (Option.some.inj hparse)
  rw [← hnil, List.append_nil] at hrest
  exact ⟨hrest, hcontent.symm⟩

/-- The first frames of two streams that agree are one frame. -/
theorem PrefixFree.head {frame : α → List β} {content : α → γ} {s : Set α}
    (h : PrefixFree frame content s) {a b : α} (ha : a ∈ s) (hb : b ∈ s) {rest rest' : List β}
    (heq : frame a ++ rest = frame b ++ rest') : content a = content b ∧ rest = rest' := by
  have hsame : frame a = frame b ∧ content a = content b := by
    have hfront : frame a <+: frame b ++ rest' := ⟨rest, heq⟩
    rcases List.prefix_or_prefix_of_prefix hfront (List.prefix_append _ _) with hab | hba
    · exact h a ha b hb hab
    · obtain ⟨hframe, hcontent⟩ := h b hb a ha hba
      exact ⟨hframe.symm, hcontent.symm⟩
  rw [hsame.1] at heq
  exact ⟨hsame.2, List.append_cancel_left heq⟩

/-- **Unique reading.** The induction takes the same frame off both streams. An empty stream has no
records, as a frame is not empty. -/
theorem PrefixFree.map_content {frame : α → List β} {content : α → γ} {s : Set α}
    (h : PrefixFree frame content s) (hne : ∀ a ∈ s, frame a ≠ []) :
    ∀ {xs ys : List α}, (∀ a ∈ xs, a ∈ s) → (∀ a ∈ ys, a ∈ s) →
      xs.flatMap frame = ys.flatMap frame → xs.map content = ys.map content := by
  intro xs
  induction xs with
  | nil =>
    intro ys _ hys heq
    cases ys with
    | nil => rfl
    | cons y ys =>
      rw [List.flatMap_nil, List.flatMap_cons] at heq
      exact absurd (List.append_eq_nil_iff.mp heq.symm).1 (hne y (hys y List.mem_cons_self))
  | cons x xs ih =>
    intro ys hxs hys heq
    cases ys with
    | nil =>
      rw [List.flatMap_nil, List.flatMap_cons] at heq
      exact absurd (List.append_eq_nil_iff.mp heq).1 (hne x (hxs x List.mem_cons_self))
    | cons y ys =>
      rw [List.flatMap_cons, List.flatMap_cons] at heq
      obtain ⟨hcontent, hrest⟩ := h.head (hxs x List.mem_cons_self) (hys y List.mem_cons_self) heq
      have htail := ih (fun a ha => hxs a (List.mem_cons_of_mem _ ha))
        (fun a ha => hys a (List.mem_cons_of_mem _ ha)) hrest
      rw [List.map_cons, List.map_cons, htail, hcontent]

end Framing
