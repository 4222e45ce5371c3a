import AviKernel.Fs.PathTexts

/-!
# Paths below a mount

The parts of a mount path are taken away from the front of a path below it.  What is left
is the path as the mounted file system knows it.
-/

namespace AviKernel.PathStrings.Path

open Libc

def removePart (p : Path) (index : ℤ) : Option Path :=
  (Vector.remove p.parts index).map fun parts => { p with parts := parts }

/-- Remove the first part, as many times as given. -/
def removeParts (p : Path) : ℕ → Option Path
  | 0 => some p
  | n + 1 => (p.removePart 0).bind fun p => p.removeParts n

variable {p : Path} {s u : Libc.String} {l m t : List UInt8} {texts rest : List (List UInt8)}

theorem removeParts_eq (hparts : List.Forall₂ String.Refines p.parts (texts ++ rest)) :
    ∃ q, p.removeParts texts.length = some q ∧ q.folder = p.folder ∧
      List.Forall₂ String.Refines q.parts rest := by
  induction texts generalizing p with
  | nil => exact ⟨p, rfl, rfl, hparts⟩
  | cons text texts ih =>
      obtain ⟨folder, parts⟩ := p
      cases hparts with
      | cons hpart hparts =>
          rename_i part parts
          obtain ⟨q, hq, hfolder, hrest⟩ := ih (p := ⟨folder, parts⟩) hparts
          refine ⟨q, ?_, hfolder, hrest⟩
          have hremove : removePart ⟨folder, part :: parts⟩ 0 = some ⟨folder, parts⟩ := by
            rw [removePart, Vector.remove_cons_zero, Option.map_some]
          rw [List.length_cons, removeParts, hremove, Option.bind_some]
          exact hq

/-- What a mount path takes away from a path below it. -/
theorem Refines.trimmed {mount : Path} (hp : p.Refines (m ++ t)) (hmount : mount.Refines m)
    (hm : ended slash m = true) : ∃ q, p.removeParts mount.getDepth.toNat = some q ∧
      q.folder = p.folder ∧ q.Refines t := by
  have hdepth : mount.getDepth.toNat = (cut slash [] m).length := by
    have hfolder : mount.isFolder = true := hmount.folder.trans hm
    rw [getDepth, hfolder, if_pos rfl, Int.toNat_natCast, hmount.parts.length_eq]
  have hparts := hp.parts
  rw [cut_append List.not_mem_nil (by rwa [List.nil_append])] at hparts
  obtain ⟨q, hq, hfolder, hrest⟩ := removeParts_eq hparts
  refine ⟨q, ?_, hfolder, ⟨?_, hrest⟩⟩
  · rw [hdepth, hq]
  · rw [hfolder, hp.folder, ended_append hm]

/-- A path below a mount, without the parts of the mount path. -/
theorem trimmed_of_mount {garbage fresh fresh' : Garbage} (hs : s.Refines m) (hu : u.Refines t)
    (hhead : m.head? = some slash) (hlast : m.getLast? = some slash) (hfits : Fits (m ++ t)) :
    ∃ sum p mount q, String.add garbage s u = some sum ∧ ofString fresh sum = some p ∧
      ofString fresh' s = some mount ∧ p.removeParts mount.getDepth.toNat = some q ∧
      (∀ fresh, ∃ v, q.toString fresh = some v ∧ v.Refines (slash :: t)) ∧
      q.isFolder = p.isFolder := by
  unfold Fits at hfits
  have hlength := hfits
  rw [List.length_append] at hlength
  obtain ⟨body, rfl⟩ := List.head?_eq_some_iff.mp hhead
  have hended : ended slash body = true := decide_eq_true hlast
  have hbody : pathText (slash :: body) = body := (List.cons.inj (pathText_of_absolute hhead)).2
  have hwhole : pathText (slash :: body ++ t) = body ++ t :=
    (List.cons.inj (pathText_of_absolute (l := slash :: body ++ t) rfl)).2
  rw [List.length_cons] at hlength
  obtain ⟨sum, hsum, hrefsum⟩ := @String.addCString_refines s _ _ _ garbage hs hu.spells
    (by rw [List.length_cons]; omega)
  obtain ⟨p, hp, hrefp⟩ := ofString_refines fresh hrefsum (by omega)
  obtain ⟨mount, hmount, hrefmount⟩ := ofString_refines fresh' hs (by rw [List.length_cons]; omega)
  rw [hwhole] at hrefp
  rw [hbody] at hrefmount
  obtain ⟨q, hq, hfolder, hrefq⟩ := hrefp.trimmed hrefmount hended
  exact ⟨sum, p, mount, q, hsum, hp, hmount, hq,
    fun fresh => toString_refines fresh hrefq (by omega), hfolder⟩

/-- The path `/dev/sda` below `/dev/`. -/
theorem trimmed_of_mount_dev : ∃ sum p mount q,
    String.add (fun _ _ => 0) ⟨[47, 100, 101, 118, 47, 0], 5⟩ ⟨[115, 100, 97, 0], 3⟩ = some sum ∧
      ofString (fun _ _ => 0) sum = some p ∧
      ofString (fun _ _ => 0) ⟨[47, 100, 101, 118, 47, 0], 5⟩ = some mount ∧
      p.removeParts mount.getDepth.toNat = some q ∧
      (∀ fresh, ∃ v, q.toString fresh = some v ∧ v.Refines (slash :: [115, 100, 97])) ∧
      q.isFolder = p.isFolder :=
  @trimmed_of_mount _ _ [47, 100, 101, 118, 47] _ _ _ _ ⟨by decide, by decide, by decide⟩
    ⟨by decide, by decide, by decide⟩ (by decide) (by decide) (by decide)

end AviKernel.PathStrings.Path
