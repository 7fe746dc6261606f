import FunctorCalls.Key
import FunctorCalls.Options
import FunctorCalls.Proofs.Format.Expr

namespace FunctorCalls

open Format (Legible ReadsBack)
open Json (Shape)

namespace Format

instance : Legible UInt8 where
  readsBack n := by
    refine ⟨Shape.fits_verbatim _, ?_⟩
    have h : below? UInt8.size (toJson n) = some n.toNat := below?_toJson n.toNat_lt
    change (below? UInt8.size (toJson n)).map UInt8.ofNat = some n
    rw [h, Option.map_some, UInt8.ofNat_toNat]

instance : Legible Digest where
  readsBack d := by
    refine ⟨Shape.fits_verbatim _, ?_⟩
    have h : (d.bytes.map toJson).mapM ofJson? = some d.bytes :=
      (Legible.readsBack d.bytes).reads
    change ((d.bytes.map toJson).mapM ofJson?).bind Digest.ofBytes? = some d
    rw [h, Option.bind_some, Digest.ofBytes?, dif_pos d.length_bytes]

instance : Legible Instance where
  readsBack i := by
    have hc : ReadsBack i.callable := Legible.readsBack i.callable
    have hv : ReadsBack i.variant := Legible.readsBack i.variant
    have ht : ReadsBack i.typeArgs := Legible.readsBack i.typeArgs
    exact ⟨Shape.fits_record (by decide) (.cons hc.fits (.cons hv.fits (.cons ht.fits .nil))),
      read₃ Instance.mk hc.reads hv.reads ht.reads⟩

instance : Legible Key where
  readsBack k := by
    have hc : ReadsBack k.callable := Legible.readsBack k.callable
    have hv : ReadsBack k.variant := Legible.readsBack k.variant
    have ht : ReadsBack k.typeArgs := Legible.readsBack k.typeArgs
    exact ⟨Shape.fits_record (by decide) (.cons hc.fits (.cons hv.fits (.cons ht.fits .nil))),
      read₃ Key.mk hc.reads hv.reads ht.reads⟩

instance : Legible Options where
  readsBack o := by
    have hn : ReadsBack o.entryPoints := Legible.readsBack o.entryPoints
    exact ⟨Shape.fits_record (by decide) (.cons hn.fits .nil), read₁ Options.mk hn.reads⟩

theorem read?_text {α : Type} [Format α] [Legible α] (a : α) : read? (text a) = some a :=
  (Legible.readsBack a).read?_print Json.Style.isBlank_compact

end Format

namespace Options

theorem read?_fileText (o : Options) : Format.read? o.fileText = some o :=
  (Legible.readsBack o).read?_print Json.Style.isBlank_indented

theorem fromUTF8?_toUTF8 (s : String) : String.fromUTF8? s.toUTF8 = some s := by
  rw [String.fromUTF8?, String.toUTF8_eq_toByteArray, dif_pos s.isValidUTF8]
  rfl

theorem ofFile_fileBytes (o : Options) : ofFile o.fileBytes = .ok o := by
  have h : String.fromUTF8? ⟨o.fileBytes.toArray⟩ = some o.fileText := by
    rw [fileBytes, Array.toArray_toList]
    exact fromUTF8?_toUTF8 _
  rw [ofFile, h]
  simp only [read?_fileText]

theorem saveTo_loadFrom {files : FileSystem} {o : Options} {path : files.Path} {s s' : files.State}
    (h : files.write s path o.fileBytes = some s') :
    o.saveTo files path s = .ok s' ∧ loadFrom files path s' = .ok o := by
  rw [saveTo, h, loadFrom, files.read_write h]
  exact ⟨rfl, ofFile_fileBytes o⟩

/-- What is written of instances, keys, digests and options is read back as it was: in the same
order, and with no list of type arguments apart from an empty one. Options read back from the text
of their file as well, and wherever that can be written, they are loaded again as they were
saved. -/
theorem answers_and_options_read_back :
    (∀ i : Instance, Format.read? (Format.text i) = some i) ∧
    (∀ k : Key, Format.read? (Format.text k) = some k) ∧
    (∀ d : Digest, Format.read? (Format.text d) = some d) ∧
    (∀ o : Options, Format.read? (Format.text o) = some o ∧ Format.read? o.fileText = some o) ∧
    ∀ (files : FileSystem) (o : Options) (path : files.Path) (s s' : files.State),
      files.write s path o.fileBytes = some s' →
        o.saveTo files path s = .ok s' ∧ loadFrom files path s' = .ok o := by
  refine ⟨Format.read?_text, Format.read?_text, Format.read?_text, ?_, ?_⟩
  · intro o
    exact ⟨Format.read?_text o, read?_fileText o⟩
  · intro files o path s s' h
    exact saveTo_loadFrom h

def accented : Options :=
  ⟨[⟨"Lib", "π\x22\n"⟩, ⟨"", ""⟩, ⟨"Lib", "π\x22\n"⟩]⟩

theorem answers_and_options_read_back_vacant :
    FileSystem.single.write .vacant () accented.fileBytes = some (.file accented.fileBytes) ∧
      accented.save .vacant = .ok (.file accented.fileBytes) ∧
      load (.file accented.fileBytes) = .ok accented :=
  ⟨rfl, answers_and_options_read_back.2.2.2.2 .single accented () .vacant _ rfl⟩

end Options

end FunctorCalls
