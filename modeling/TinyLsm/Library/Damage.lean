import Mathlib.Data.List.TakeWhile
import TinyLsm.Library.Framing

/-!
# Damaged frames in a stream

A stream of frames in which other bytes of the same length stand in the place of some.  When the
decoder rejects these bytes, whatever follows them, a loop over the stream gives what it gives on the
whole stream, unless it meets a damaged frame (`forFrames_pieces`), and what can be decoded of the stream
ends before the first one (`exists_rest`).
-/

namespace Framing

variable {α β γ ε ρ : Type*}

/-- A frame of a stream, and the bytes in its place if it is damaged. -/
structure Piece (γ β : Type*) where
  frame : γ
  damage : Option (List β)

namespace Piece

/-- The bytes of the stream in the place of the frame. -/
def bytes (encode : γ → List β) (p : Piece γ β) : List β :=
  p.damage.getD (encode p.frame)

/-- The frame stands in the stream. -/
def isIntact (p : Piece γ β) : Bool :=
  p.damage.isNone

/-- Damage keeps the length of the frame, and the decoder finds no frame there. -/
structure Detected (decode : List β → Option (α × ℕ)) (encode : γ → List β) (read : γ → α)
    (p : Piece γ β) : Prop where
  reads : Reads decode encode read p.frame
  length_eq : ∀ bad ∈ p.damage, bad.length = (encode p.frame).length
  rejected : ∀ bad ∈ p.damage, ∀ rest, decode (bad ++ rest) = none

end Piece

/-- A loop that goes on at some frames meets a damaged one. -/
def meets (goesOn : γ → Bool) : List (Piece γ β) → Bool
  | [] => false
  | p :: ps => p.damage.isSome || (goesOn p.frame && meets goesOn ps)

variable {decode : List β → Option (α × ℕ)} {encode : γ → List β} {read : γ → α}
  {ps : List (Piece γ β)}

theorem length_bytes (h : ∀ p ∈ ps, p.Detected decode encode read) :
  (ps.flatMap (Piece.bytes encode)).length = ((ps.map Piece.frame).flatMap encode).length
  := by
  induction ps with
  | nil => rfl
  | cons p ps ih =>
      obtain ⟨hp, hps⟩ := List.forall_mem_cons.mp h
      rw [List.flatMap_cons, List.map_cons, List.flatMap_cons, List.length_append,
        List.length_append, ih hps, Piece.bytes]
      cases hdamage : p.damage with
      | none => rfl
      | some bad => rw [Option.getD_some, hp.length_eq bad hdamage]

/-- A loop over the stream, which goes on at a frame or not whatever it has gathered, ends as over the
stream without damage, unless it meets a damaged frame. -/
theorem forFrames_pieces (h : ∀ p ∈ ps, p.Detected decode encode read) (bad : ε)
    {body : ρ → α → ForInStep ρ} {goesOn : γ → Bool}
    (hyield : ∀ acc c, goesOn c = true → ∃ r, body acc (read c) = .yield r)
    (hdone : ∀ acc c, goesOn c = false → ∃ r, body acc (read c) = .done r)
    {fuel : ℕ} (hfuel : (ps.flatMap (Piece.bytes encode)).length ≤ fuel) (acc : ρ) :
  forFrames decode bad body fuel (ps.flatMap (Piece.bytes encode)) acc
    = if meets goesOn ps then .error bad
      else .ok (foldSteps body acc ((ps.map Piece.frame).map read))
  := by
  induction ps generalizing fuel acc with
  | nil =>
      cases fuel with
      | zero => rfl
      | succ fuel => rfl
  | cons p ps ih =>
      obtain ⟨hp, hps⟩ := List.forall_mem_cons.mp h
      have hpos : p.bytes encode ≠ [] := by
        rw [← List.length_pos_iff, Piece.bytes]
        have hne := List.length_pos_iff.mpr hp.reads.1
        cases hdamage : p.damage with
        | none => exact hne
        | some bad =>
            rw [Option.getD_some, hp.length_eq bad hdamage]
            exact hne
      rw [List.flatMap_cons, List.length_append] at hfuel
      have hlen := List.length_pos_iff.mpr hpos
      obtain ⟨fuel, rfl⟩ : ∃ n, fuel = n + 1 := ⟨fuel - 1, by omega⟩
      have hne : p.bytes encode ++ ps.flatMap (Piece.bytes encode) ≠ [] := by
        simp [hpos]
      rw [List.flatMap_cons]
      cases hdamage : p.damage with
      | some bytes =>
          have hbytes : p.bytes encode = bytes := by rw [Piece.bytes, hdamage, Option.getD_some]
          rw [forFrames_of_none hne (by rw [hbytes]; exact hp.rejected bytes hdamage _), meets,
            hdamage]
          rfl
      | none =>
          have hbytes : p.bytes encode = encode p.frame := by
            rw [Piece.bytes, hdamage, Option.getD_none]
          have hdecode := hp.reads.2 (ps.flatMap (Piece.bytes encode))
          rw [← hbytes] at hdecode
          simp only [meets, hdamage, Option.isSome_none, Bool.false_or, List.map_cons]
          cases hgoes : goesOn p.frame with
          | true =>
              obtain ⟨r, hr⟩ := hyield acc p.frame hgoes
              rw [forFrames_of_yield hne hdecode hr, List.drop_left, Bool.true_and,
                ih hps (by omega), foldSteps, hr]
          | false =>
              obtain ⟨r, hr⟩ := hdone acc p.frame hgoes
              rw [forFrames_of_done hne hdecode hr, Bool.false_and, foldSteps, hr]
              rfl

/-- After the frames before the first damaged one, the stream does not decode. -/
theorem exists_rest (h : ∀ p ∈ ps, p.Detected decode encode read) {tail : List β}
    (htail : decode tail = none) :
  ∃ rest, ps.flatMap (Piece.bytes encode) ++ tail
      = ((ps.takeWhile Piece.isIntact).map Piece.frame).flatMap encode ++ rest
    ∧ decode rest = none
  := by
  have hintact : ∀ p ∈ ps.takeWhile Piece.isIntact, p.bytes encode = encode p.frame := by
    intro p hp
    have hnone := List.mem_takeWhile_imp hp
    rw [Piece.bytes, Option.isNone_iff_eq_none.mp hnone, Option.getD_none]
  refine ⟨(ps.dropWhile Piece.isIntact).flatMap (Piece.bytes encode) ++ tail, ?_, ?_⟩
  · conv_lhs => rw [← List.takeWhile_append_dropWhile (p := Piece.isIntact) (l := ps)]
    rw [List.flatMap_append, List.append_assoc, List.flatMap_map, List.flatMap_congr hintact]
  · cases hdrop : ps.dropWhile Piece.isIntact with
    | nil => exact htail
    | cons p rest =>
        have hmem : p ∈ ps := by
          rw [← List.takeWhile_append_dropWhile (p := Piece.isIntact) (l := ps), hdrop]
          simp
        have hdamaged : p.damage.isSome := by
          have hhead := List.head?_dropWhile_not Piece.isIntact ps
          simpa [hdrop, Piece.isIntact] using hhead
        obtain ⟨bad, hbad⟩ := Option.isSome_iff_exists.mp hdamaged
        rw [List.flatMap_cons, List.append_assoc, Piece.bytes, hbad, Option.getD_some]
        exact (h p hmem).rejected bad hbad _

end Framing
