import LayeredConfig.Proofs.Json.Reading
import LayeredConfig.Proofs.Text.Decoding
import LayeredConfig.Proofs.Yaml.Building
import LayeredConfig.Source.File

/-!
# What comes of a data file

A JSON or YAML file that is there gives a mapping, or it is reported as a failure of
configuration that names the file.  Three kinds of errors pass by the reports: the bytes
are no UTF-8, a whole number in JSON has too many digits, a value in YAML cannot be
built.  YAML is read by a library, of which only its way to fail is relied on: faults of
the text are faults of their own kind, bytes that are no text are found out where the
reader gets to them, and other errors come of values that cannot be built.

* `Source.YamlReader.Lawful` — what is relied on of the reader of YAML files.
* `Source.lawful_readBytes` — this library's reader is one.
* `Source.FailsWith` — why a data file gives no mapping.
* `Source.loadFile_data` — every data file gives a mapping or fails that way.
-/

namespace LayeredConfig

/-! ## Readers of YAML files -/

namespace Yaml.Excerpt

variable {bytes : List UInt8}

/-- A file is read to its end only if it is a text. -/
theorem exists_encode_of_cut (h : (ofBytes bytes).cut = none) :
    ∃ cs, bytes = Text.Utf8.encode cs := by
  rcases hread : Text.Utf8.decodeInBlocks bytes with ⟨cs, _ | e⟩
  · exact ⟨cs, Text.Utf8.decodeInBlocks_eq_iff.1 hread⟩
  · rw [ofBytes, hread] at h
    dsimp only [ofChars] at h
    split at h <;> cases h

/-- A text never breaks off for its encoding. -/
theorem ne_encode_of_cut {e : Text.Utf8Error} (h : (ofBytes bytes).cut = some (.encoding e))
    (cs : List Char) : bytes ≠ Text.Utf8.encode cs := by
  intro hcs
  rw [ofBytes, Text.Utf8.decodeInBlocks_eq_iff.2 hcs] at h
  dsimp only [ofChars] at h
  split at h <;> cases h

end Yaml.Excerpt

namespace Source

/-- A reader of YAML files gives a value only of a text, meets bytes that are no text only in a file
that is none, and fails in other ways only for values that it cannot build.  `Unbuildable` tells which
values of a file these are. -/
structure YamlReader.Lawful (yaml : YamlReader)
    (Unbuildable : List UInt8 → Yaml.ValueFault → Prop) : Prop where
  text : ∀ {bytes v}, yaml bytes = .ok v → ∃ cs, bytes = Text.Utf8.encode cs
  encoding : ∀ {bytes e}, yaml bytes = .error (.cut (.encoding e)) →
    ∀ cs, bytes ≠ Text.Utf8.encode cs
  value : ∀ {bytes e}, yaml bytes = .error (.value e) → Unbuildable bytes e

/-- A value of a file cannot be built: it stands in the text as far as that is read. -/
def UnbuildableIn (bytes : List UInt8) (e : Yaml.ValueFault) : Prop :=
  Yaml.Unbuildable (.ofBytes bytes) e

/-- The reader of this library is lawful. -/
theorem lawful_readBytes : YamlReader.Lawful Yaml.readBytes UnbuildableIn where
  text h := Yaml.Excerpt.exists_encode_of_cut ((Yaml.ends_read _).of_eq_ok h)
  encoding h := Yaml.Excerpt.ne_encode_of_cut ((Yaml.ends_read _).of_eq_error h)
  value h := (Yaml.ends_read _).of_eq_error h

/-! ## Files -/

/-- A file of the format that holds the bytes may fail with the error: with a report that names the
file, or past the reports for what the bytes hold. -/
inductive FailsWith (Unbuildable : List UInt8 → Yaml.ValueFault → Prop) (p : FilePath) :
    Format → List UInt8 → FileError → Prop where
  /-- The failure is one of configuration, and its facts start with the file. -/
  | reported {format : Format} {bytes : List UInt8} (message : String)
    (facts : List (String × Value)) :
    FailsWith Unbuildable p format bytes (.failure (.configuration message (pathFact p :: facts)))
  /-- No text is written as the bytes. -/
  | encoding {format : Format} {bytes : List UInt8} {e : Text.Utf8Error}
    (h : ∀ cs, bytes ≠ Text.Utf8.encode cs) : FailsWith Unbuildable p format bytes (.encoding e)
  /-- More digits than may be read stand in a row in a JSON text. -/
  | numeral {cs : List Char} {e : NumeralError} (h : e.TooLongIn (Text.unifyLineBreaks cs)) :
    FailsWith Unbuildable p .json (Text.Utf8.encode cs) (.numeral e)
  /-- A value of a YAML file cannot be built. -/
  | value {bytes : List UInt8} {e : Yaml.ValueFault} (h : Unbuildable bytes e) :
    FailsWith Unbuildable p .yaml bytes (.value e)

/-- The reader of a format meets bytes that are no text.  JSON is decoded as a whole, YAML as far as
its reader gets. -/
def MeetsNoText (yaml : YamlReader) (bytes : List UInt8) : Format → Prop
  | .json => ∀ cs, bytes ≠ Text.Utf8.encode cs
  | .yaml => ∃ e, yaml bytes = .error (.cut (.encoding e))
  | .code => False

variable {yaml : YamlReader} {Unbuildable : List UInt8 → Yaml.ValueFault → Prop} {p : FilePath}
  {bytes : List UInt8} {format : Format}

theorem ends_readJson : Ends (FailsWith Unbuildable p .json bytes)
    (fun _ => ∃ cs, bytes = Text.Utf8.encode cs) (readJson p bytes) := by
  unfold readJson
  split
  · rename_i e he
    refine .encoding fun cs hcs => ?_
    rw [Text.Utf8.decode_eq_ok_iff.2 hcs] at he
    cases he
  · rename_i cs hcs
    obtain rfl := Text.Utf8.decode_eq_ok_iff.1 hcs
    refine ((Json.ends_read _).mapError fun stop hstop => ?_).mono fun _ _ => ⟨cs, rfl⟩
    cases stop with
    | fault f rest => exact .reported _ _
    | tooLong e => exact .numeral hstop

theorem ends_readYaml (hyaml : yaml.Lawful Unbuildable) :
    Ends (FailsWith Unbuildable p .yaml bytes) (fun _ => ∃ cs, bytes = Text.Utf8.encode cs)
      (readYaml yaml p bytes) := by
  unfold readYaml
  rcases h : yaml bytes with stop | v
  · cases stop with
    | problem problem m => exact .reported _ _
    | cut c =>
      cases c with
      | control => exact .reported _ _
      | encoding e => exact .encoding (hyaml.encoding h)
    | value e => exact .value (hyaml.value h)
  · exact hyaml.text h

theorem ends_readAs_json (allowCode : Bool) :
    Ends (FailsWith Unbuildable p .json bytes) (fun _ => ∃ cs, bytes = Text.Utf8.encode cs)
      (readAs yaml .json p allowCode bytes) :=
  ends_readJson.map fun _ htext => htext

theorem ends_readAs (hyaml : yaml.Lawful Unbuildable) (h : format ≠ .code) (allowCode : Bool) :
    Ends (FailsWith Unbuildable p format bytes) (fun _ => ∃ cs, bytes = Text.Utf8.encode cs)
      (readAs yaml format p allowCode bytes) := by
  cases format with
  | json => exact ends_readAs_json allowCode
  | yaml => exact ends_readYaml hyaml
  | code => exact absurd rfl h

theorem ends_asMapping (v : Shared) :
    Ends (fun e => ∃ message facts, e = .failure (.configuration message (pathFact p :: facts)))
      (fun v => ∃ m es, v = .map m es) (asMapping p v) := by
  unfold asMapping
  split
  · exact ⟨none, [], rfl⟩
  · exact ⟨_, _, rfl⟩
  · exact ⟨_, _, rfl⟩

/-- What is no report does not come of asking for a mapping. -/
theorem bind_asMapping_eq_error_iff {x : Except FileError Shared} {e : FileError}
    (he : ∀ r, e ≠ .failure r) : x.bind (asMapping p) = .error e ↔ x = .error e := by
  cases x with
  | error e' => exact Iff.rfl
  | ok v =>
    refine iff_of_false (fun hv => ?_) (fun hv => by cases hv)
    obtain ⟨message, facts, hfailure⟩ := (ends_asMapping v).of_eq_error hv
    exact he _ hfailure

theorem snd_loadFileWith {read? : FileReader} (hformat : Format.ofPath p p.text = .ok format)
    (hread : read? p = some bytes) (allowCode : Bool) :
    (loadFileWith yaml read? p allowCode).2 =
      (readAs yaml format p allowCode bytes).bind (asMapping p) := by
  unfold loadFileWith
  rw [hformat, hread]

/-- What stops the reader of YAML and is no report passes on as it is. -/
theorem readYaml_eq_error_iff {e : FileError} {stop : Yaml.Stop}
    (h : ∀ stop', ofYamlStop p stop' = e ↔ stop' = stop) :
    readYaml yaml p bytes = .error e ↔ yaml bytes = .error stop := by
  unfold readYaml
  cases yaml bytes with
  | ok v => exact iff_of_false (fun h => by cases h) (fun h => by cases h)
  | error stop' =>
    rw [Except.mapError, Except.error.injEq, Except.error.injEq]
    exact h stop'

theorem readYaml_eq_encoding_iff {e : Text.Utf8Error} :
    readYaml yaml p bytes = .error (.encoding e) ↔ yaml bytes = .error (.cut (.encoding e)) := by
  refine readYaml_eq_error_iff fun stop => ?_
  rcases stop with _ | (_ | e') | e' <;> simp [ofYamlStop]

theorem readYaml_eq_value_iff {e : Yaml.ValueFault} :
    readYaml yaml p bytes = .error (.value e) ↔ yaml bytes = .error (.value e) := by
  refine readYaml_eq_error_iff fun stop => ?_
  rcases stop with _ | (_ | e') | e' <;> simp [ofYamlStop]

/-- A data file fails for its encoding where its reader meets bytes that are no text. -/
theorem exists_encoding_iff (h : format ≠ .code) (allowCode : Bool) :
    (∃ e, readAs yaml format p allowCode bytes = .error (.encoding e)) ↔
      MeetsNoText yaml bytes format := by
  cases format with
  | json =>
    constructor
    · rintro ⟨e, he⟩
      have hfails : FailsWith (fun _ _ => False) p .json bytes _ :=
        (ends_readAs_json allowCode).of_eq_error he
      cases hfails with
      | encoding hbytes => exact hbytes
    · intro hbytes
      cases hdecode : Text.Utf8.decode bytes with
      | error e => exact ⟨e, by rw [readAs, readJson, hdecode]; rfl⟩
      | ok cs => exact absurd (Text.Utf8.decode_eq_ok_iff.1 hdecode) (hbytes cs)
  | yaml => exact exists_congr fun e => readYaml_eq_encoding_iff
  | code => exact absurd rfl h

/-- A data file fails for a value that cannot be built just if its reader does. -/
theorem readAs_eq_value_iff (h : format ≠ .code) (allowCode : Bool) {e : Yaml.ValueFault} :
    readAs yaml format p allowCode bytes = .error (.value e) ↔
      format = .yaml ∧ yaml bytes = .error (.value e) := by
  cases format with
  | json =>
    refine iff_of_false (fun he => ?_) (fun he => by cases he.1)
    have hfails : FailsWith (fun _ _ => False) p .json bytes _ :=
      (ends_readAs_json allowCode).of_eq_error he
    cases hfails
  | yaml => exact readYaml_eq_value_iff.trans (and_iff_right rfl).symm
  | code => exact absurd rfl h

/-- A data file that is there is a text and gives a mapping, or it fails as told.  It fails for its
encoding just if its reader meets bytes that are no text, and for a value just if the reader of YAML
cannot build one. -/
theorem loadFile_data (hyaml : yaml.Lawful Unbuildable) {read? : FileReader}
    (hformat : Format.ofPath p p.text = .ok format) (hdata : format ≠ .code)
    (hread : read? p = some bytes) (allowCode : Bool) :
    Ends (FailsWith Unbuildable p format bytes)
        (fun v => (∃ cs, bytes = Text.Utf8.encode cs) ∧ ∃ m es, v = .map m es)
        (loadFileWith yaml read? p allowCode).2 ∧
      ((∃ e, (loadFileWith yaml read? p allowCode).2 = .error (.encoding e)) ↔
        MeetsNoText yaml bytes format) ∧
      ∀ e, (loadFileWith yaml read? p allowCode).2 = .error (.value e) ↔
        format = .yaml ∧ yaml bytes = .error (.value e) := by
  have hcases (e : FileError) (he : ∀ r, e ≠ .failure r) :
      (readAs yaml format p allowCode bytes).bind (asMapping p) = .error e ↔
        readAs yaml format p allowCode bytes = .error e :=
    bind_asMapping_eq_error_iff he
  rw [snd_loadFileWith hformat hread]
  refine ⟨?_, ?_, fun e => ?_⟩
  · refine (ends_readAs hyaml hdata allowCode).bind fun v htext => ?_
    cases hmap : asMapping p v with
    | ok v' => exact ⟨htext, (ends_asMapping v).of_eq_ok hmap⟩
    | error e =>
      obtain ⟨message, facts, rfl⟩ := (ends_asMapping v).of_eq_error hmap
      exact .reported message facts
  · rw [← exists_encoding_iff hdata allowCode]
    exact exists_congr fun e => hcases _ (fun r h => by cases h)
  · rw [hcases _ (fun r h => by cases h)]
    exact readAs_eq_value_iff hdata allowCode

/-- A file that dates something to a thirteenth month. -/
def dated : List UInt8 :=
  Text.Utf8.encode "d: 2024-13-01\n".toList

/-- With this library's reader of YAML, the file with the date fails as told. -/
theorem loadFile_data_dated :
    YamlReader.Lawful Yaml.readBytes UnbuildableIn ∧
      Format.ofPath (.ofText "c.yaml") "c.yaml" = .ok .yaml ∧
      Ends (FailsWith UnbuildableIn (.ofText "c.yaml") .yaml dated)
        (fun v => (∃ cs, dated = Text.Utf8.encode cs) ∧ ∃ m es, v = .map m es)
        (loadFileWith Yaml.readBytes (fun _ => some dated) (.ofText "c.yaml") false).2 := by
  have hformat : Format.ofPath (.ofText "c.yaml") (FilePath.ofText "c.yaml").text = .ok .yaml := rfl
  exact ⟨lawful_readBytes, rfl, (loadFile_data lawful_readBytes hformat (by decide) rfl false).1⟩

/-- What value of a file cannot be built. -/
def valueFault? : Except FileError Shared → Option Yaml.ValueFault
  | .error (.value e) => some e
  | _ => none

/-- The file with the date neither gives a mapping nor fails with a report. -/
theorem loadFile_unreported_dated :
    ¬ Ends (fun e => ∃ r, e = .failure r) (fun v => ∃ m es, v = .map m es)
      (loadFile (fun _ => some dated) (.ofText "c.yaml") false).2 := by
  have hfault : valueFault? (loadFile (fun _ => some dated) (.ofText "c.yaml") false).2 =
      some (.calendar .month) := by
    decide +kernel
  intro h
  rcases hout : (loadFile (fun _ => some dated) (.ofText "c.yaml") false).2 with e | v
  · obtain ⟨r, rfl⟩ := h.of_eq_error hout
    rw [hout] at hfault
    cases hfault
  · rw [hout] at hfault
    cases hfault

end Source

end LayeredConfig
