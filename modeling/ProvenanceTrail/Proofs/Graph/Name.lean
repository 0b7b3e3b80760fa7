import ProvenanceTrail.Graph.Name
import ProvenanceTrail.Proofs.Text.Trimming

/-!
# Names and their URIs

Many names have the same URI, one for each place at which it can be cut in two. A URI is split behind its
last separator, which picks one of these names: the one whose local part holds no separator and whose
namespace is empty or ends with one (`QualifiedName.Divided`). So a URI is always read back from its name,
and a name is read back from its URI exactly if it is divided there.
-/

namespace ProvenanceTrail.QualifiedName

/-- A name is divided behind the last separator of its URI; a URI without one is all local part. -/
structure Divided (n : QualifiedName) : Prop where
  noSlash : '/' ∉ n.localPart.toList
  noHash : '#' ∉ n.localPart.toList
  closed : n.nameSpace = "" ∨ ∃ stem, n.nameSpace = stem ++ "/" ∨ n.nameSpace = stem ++ "#"

/-- The separators are the slash and the number sign. -/
theorem isSeparator_iff {c : Char} : isSeparator c ↔ c = '/' ∨ c = '#' := by
  simp [isSeparator]

/-! ## The two parts of a URI -/

/-- The namespace of a URI ends with its last separator. -/
theorem toList_nameSpace_ofUri (uri : String) :
    (ofUri uri).nameSpace.toList = uri.toList.rdropWhile fun c => !isSeparator c :=
  String.toList_ofList

/-- The local part of a URI is what follows its last separator. -/
theorem toList_localPart_ofUri (uri : String) :
    (ofUri uri).localPart.toList = uri.toList.rtakeWhile fun c => !isSeparator c :=
  String.toList_ofList

/-- The parts of a URI are all of it. -/
theorem uri_ofUri (uri : String) : (ofUri uri).uri = uri := by
  rw [← String.toList_inj, QualifiedName.uri, String.toList_append, toList_nameSpace_ofUri,
    toList_localPart_ofUri, List.rdropWhile_append_rtakeWhile]

/-- A text is taken whole as a local part when it holds no separator. -/
theorem rtakeWhile_eq_self_iff {text : String} :
    text.toList.rtakeWhile (fun c => !isSeparator c) = text.toList ↔
      '/' ∉ text.toList ∧ '#' ∉ text.toList := by
  rw [List.rtakeWhile_eq_self_iff]
  constructor
  · exact fun h => ⟨fun hc => absurd (h _ hc) (by decide), fun hc => absurd (h _ hc) (by decide)⟩
  · rintro ⟨hslash, hhash⟩ c hc
    rw [Bool.not_eq_true', Bool.eq_false_iff, ne_eq, isSeparator_iff]
    rintro (rfl | rfl)
    · exact hslash hc
    · exact hhash hc

/-- A text is kept whole as a namespace when it is empty or ends with a separator. -/
theorem rdropWhile_eq_self_iff {text : String} :
    text.toList.rdropWhile (fun c => !isSeparator c) = text.toList ↔
      text = "" ∨ ∃ stem, text = stem ++ "/" ∨ text = stem ++ "#" := by
  rw [List.rdropWhile_eq_self_iff]
  constructor
  · intro h
    rcases List.eq_nil_or_concat' text.toList with hnil | ⟨stem, c, hconcat⟩
    · exact .inl (String.toList_eq_nil_iff.1 hnil)
    · have hlast : isSeparator c := by simpa [hconcat] using h
      have htext : text = String.ofList stem ++ String.ofList [c] := by
        rw [← String.ofList_append, ← hconcat, String.ofList_toList]
      refine .inr ⟨String.ofList stem, (isSeparator_iff.1 hlast).imp ?_ ?_⟩ <;>
        · rintro rfl
          exact htext
  · rintro (rfl | ⟨stem, rfl | rfl⟩) <;> simp [isSeparator]

/-! ## Reading back -/

/-- A name is divided at the last separator just if the namespace ends with one and the local part has none.
-/
theorem divided_iff {n : QualifiedName} :
    n.Divided ↔ n.nameSpace.toList.rdropWhile (fun c => !isSeparator c) = n.nameSpace.toList ∧
      n.localPart.toList.rtakeWhile (fun c => !isSeparator c) = n.localPart.toList := by
  rw [rdropWhile_eq_self_iff, rtakeWhile_eq_self_iff]
  exact ⟨fun ⟨hslash, hhash, hclosed⟩ => ⟨hclosed, hslash, hhash⟩,
    fun ⟨hclosed, hslash, hhash⟩ => ⟨hslash, hhash, hclosed⟩⟩

/-- What a URI is split into is divided. -/
theorem divided_ofUri (uri : String) : (ofUri uri).Divided := by
  rw [divided_iff, toList_nameSpace_ofUri, toList_localPart_ofUri]
  exact ⟨List.rdropWhile_idempotent _ _, List.rtakeWhile_idempotent _ _⟩

/-- A URI is split where a divided name was put together. -/
theorem Divided.ofUri_uri {n : QualifiedName} (h : n.Divided) : ofUri n.uri = n := by
  obtain ⟨hnameSpace, hlocal⟩ := divided_iff.1 h
  have hfront : (ofUri n.uri).nameSpace.toList = n.nameSpace.toList := by
    rw [toList_nameSpace_ofUri, uri, String.toList_append,
      Text.rdropWhile_append_of_pos (List.rtakeWhile_eq_self_iff.1 hlocal), hnameSpace]
  -- Both names have the same URI, so that with the namespaces the local parts agree as well.
  have hwhole : (ofUri n.uri).nameSpace.toList ++ (ofUri n.uri).localPart.toList =
      n.nameSpace.toList ++ n.localPart.toList := by
    rw [← String.toList_append, ← String.toList_append]
    exact congrArg String.toList (uri_ofUri n.uri)
  have hback : (ofUri n.uri).localPart.toList = n.localPart.toList := by
    rw [hfront] at hwhole
    exact List.append_cancel_left hwhole
  exact congrArg₂ QualifiedName.mk (String.toList_inj.1 hfront) (String.toList_inj.1 hback)

/-- **Names and URIs convert faithfully.** The name that a URI is split into has that URI and is divided, so
that its local part holds no separator. A name is what its URI is split into exactly if it is divided. -/
theorem uri_conversion_exact :
    (∀ uri : String, (ofUri uri).uri = uri ∧ (ofUri uri).Divided) ∧
      ∀ n : QualifiedName, ofUri n.uri = n ↔ n.Divided :=
  ⟨fun uri => ⟨uri_ofUri uri, divided_ofUri uri⟩,
    fun n => ⟨fun h => h ▸ divided_ofUri n.uri, Divided.ofUri_uri⟩⟩

/-- Of the names with one URI, the divided one is found. -/
example : ofUri (⟨"http://", "a/B"⟩ : QualifiedName).uri = ⟨"http://a/", "B"⟩ := by decide

end ProvenanceTrail.QualifiedName
