import Mathlib

/-!
# Languages and encodings that end where they end

A language is prefix-free if none of its words is a proper prefix of another.  There are two reasons
for a format to be so.  Either the first letters of a word say how long it is
(`PrefixFree.of_length`), or the word is written by an encoding whose end can be told from what has
been read so far, whatever follows (`SelfDelimiting`).  Self-delimiting encodings are put together
from fields: fields of one length, sequences behind their number, and fields that follow each other,
where the definition itself peels the first field off.

A decoder is `Delimited` if it rejects what is cut off and what goes on: its language is prefix-free
(`delimited_iff`).
-/

set_option autoImplicit false

variable {α β γ ε : Type}

/-- No word of the language is a proper prefix of another. -/
def PrefixFree (L : Set (List α)) : Prop :=
  ∀ ⦃x⦄, x ∈ L → ∀ ⦃y⦄, y ∈ L → x <+: y → x = y

/-- **The first `n` letters of a word give its length.** -/
theorem PrefixFree.of_length {L : Set (List α)} {n : ℕ} (len : List α → ℕ)
    (h : ∀ x ∈ L, n ≤ x.length ∧ x.length = len (x.take n)) : PrefixFree L := by
  intro x hx y hy hxy
  obtain ⟨hle, hlen⟩ := h x hx
  obtain ⟨-, hlen'⟩ := h y hy
  obtain ⟨t, rfl⟩ := hxy
  rw [List.take_append_of_le_length hle] at hlen'
  exact List.IsPrefix.eq_of_length (List.prefix_append x t) (hlen.trans hlen'.symm)

/-- A field at a fixed place gives the length. -/
theorem PrefixFree.of_lengthField {L : Set (List α)} {p w : ℕ} (len : List α → ℕ)
    (h : ∀ x ∈ L, ∃ pre field rest, x = pre ++ field ++ rest ∧ pre.length = p ∧ field.length = w ∧
      x.length = len field) : PrefixFree L := by
  refine of_length (n := p + w) (fun head ↦ len (head.drop p)) fun x hx ↦ ?_
  obtain ⟨pre, field, rest, rfl, rfl, rfl, hlen⟩ := h x hx
  rw [← List.length_append, List.take_left, List.drop_left]
  exact ⟨by simp, hlen⟩

/-! ## Self-delimiting encodings -/

/-- What is written for a value of `V` is told apart from what follows it. -/
def SelfDelimiting (V : Set β) (f : β → List α) : Prop :=
  ∀ ⦃a⦄, a ∈ V → ∀ ⦃b⦄, b ∈ V → ∀ ⦃s t⦄, f a ++ s = f b ++ t → a = b ∧ s = t

namespace SelfDelimiting

variable {V : Set β} {f : β → List α}

/-- Fields of one length. -/
theorem of_length {n : ℕ} (hlen : ∀ a ∈ V, (f a).length = n) (hinj : Set.InjOn f V) :
    SelfDelimiting V f := by
  intro a ha b hb s t h
  obtain ⟨hab, hst⟩ := List.append_inj h ((hlen a ha).trans (hlen b hb).symm)
  exact ⟨hinj ha hb hab, hst⟩

/-- The values can be renamed. -/
theorem comp {g : γ → β} {U : Set γ} (hf : SelfDelimiting V f) (hmaps : Set.MapsTo g U V)
    (hinj : Set.InjOn g U) : SelfDelimiting U (f ∘ g) := by
  intro a ha b hb s t h
  obtain ⟨hab, hst⟩ := hf (hmaps ha) (hmaps hb) h
  exact ⟨hinj ha hb hab, hst⟩

/-- Sequences of the same number of fields. -/
theorem flatMap (hf : SelfDelimiting V f) {l m : List β} (hlen : l.length = m.length)
    (hl : ∀ x ∈ l, x ∈ V) (hm : ∀ x ∈ m, x ∈ V) {s t : List α}
    (h : l.flatMap f ++ s = m.flatMap f ++ t) : l = m ∧ s = t := by
  induction l generalizing m with
  | nil =>
    obtain rfl := List.length_eq_zero_iff.mp hlen.symm
    exact ⟨rfl, h⟩
  | cons a l ih =>
    obtain ⟨b, m, rfl⟩ := List.exists_cons_of_length_eq_add_one hlen.symm
    obtain ⟨ha, hl'⟩ := List.forall_mem_cons.mp hl
    obtain ⟨hb, hm'⟩ := List.forall_mem_cons.mp hm
    rw [List.flatMap_cons, List.flatMap_cons, List.append_assoc, List.append_assoc] at h
    obtain ⟨rfl, hrest⟩ := hf ha hb h
    obtain ⟨rfl, hst⟩ := ih (by simpa using hlen) hl' hm' hrest
    exact ⟨rfl, hst⟩

/-- **A sequence of fields behind their number.** -/
theorem counted {N : Set ℕ} {g : ℕ → List α} (hg : SelfDelimiting N g) (hf : SelfDelimiting V f) :
    SelfDelimiting {l : List β | l.length ∈ N ∧ ∀ x ∈ l, x ∈ V}
      fun l ↦ g l.length ++ l.flatMap f := by
  intro l hl m hm s t h
  simp only [List.append_assoc] at h
  obtain ⟨hlen, h⟩ := hg hl.1 hm.1 h
  exact hf.flatMap hlen hl.2 hm.2 h

/-- **A string behind its length.** -/
theorem lengthPrefixed {N : Set ℕ} {g : ℕ → List α} (hg : SelfDelimiting N g) :
    SelfDelimiting {w : List α | w.length ∈ N} fun w ↦ g w.length ++ w := by
  intro w hw v hv s t h
  simp only [List.append_assoc] at h
  obtain ⟨hlen, h⟩ := hg hw hv h
  exact List.append_inj h hlen

/-- **A field that may be missing**, behind a letter that says whether it is there. -/
theorem optional (hf : SelfDelimiting V f) {absent present : α} (hne : absent ≠ present) :
    SelfDelimiting {o : Option β | ∀ x ∈ o, x ∈ V}
      fun o ↦ o.elim [absent] fun x ↦ present :: f x := by
  rintro (_ | a) ha (_ | b) hb s t h
  · exact ⟨rfl, (List.cons.inj h).2⟩
  · exact absurd (List.cons.inj h).1 hne
  · exact absurd (List.cons.inj h).1.symm hne
  · obtain ⟨rfl, hst⟩ := hf (ha a rfl) (hb b rfl) (List.cons.inj h).2
    exact ⟨rfl, hst⟩

/-- The language of an encoding. -/
theorem prefixFree (hf : SelfDelimiting V f) : PrefixFree (f '' V) := by
  rintro _ ⟨a, ha, rfl⟩ _ ⟨b, hb, rfl⟩ ⟨t, h⟩
  obtain ⟨rfl, -⟩ := hf ha hb (h.trans (List.append_nil _).symm)
  rfl

end SelfDelimiting

/-- **A word starts with one tag**, if no tag is a prefix of another. -/
theorem tag_unique {tag : β → List α} (h : ∀ a b, tag a <+: tag b → a = b) {a b : β}
    {w : List α} (ha : tag a <+: w) (hb : tag b <+: w) : a = b := by
  rcases List.prefix_or_prefix_of_prefix ha hb with hab | hba
  · exact h a b hab
  · exact (h b a hba).symm

/-! ## Decoders -/

/-- The decoder rejects every proper prefix of a string that it accepts, and the string with more
behind it. -/
def Delimited (decode : List α → Except ε γ) : Prop :=
  ∀ b x, decode b = .ok x →
    (∀ p, p <+: b → p ≠ b → ∃ e, decode p = .error e) ∧
    ∀ t, t ≠ [] → ∃ e, decode (b ++ t) = .error e

/-- **That is, the accepted strings are a prefix-free language.** -/
theorem delimited_iff {decode : List α → Except ε γ} :
    Delimited decode ↔ PrefixFree {b | ∃ x, decode b = .ok x} := by
  constructor
  · rintro h b ⟨x, hb⟩ c ⟨y, hc⟩ hbc
    by_contra hne
    obtain ⟨e, he⟩ := (h c y hc).1 b hbc hne
    exact absurd (hb.symm.trans he) nofun
  · intro h b x hb
    refine ⟨fun p hp hne ↦ ?_, fun t ht ↦ ?_⟩
    · rcases hdecode : decode p with e | y
      · exact ⟨e, rfl⟩
      · exact absurd (h ⟨y, hdecode⟩ ⟨x, hb⟩ hp) hne
    · rcases hdecode : decode (b ++ t) with e | y
      · exact ⟨e, rfl⟩
      · exact absurd (List.self_eq_append_right.mp
          (h ⟨x, hb⟩ ⟨y, hdecode⟩ (List.prefix_append b t))) ht
