import BlockEdit.Command.World
import BlockEdit.Edit.Json
import BlockEdit.Main
import BlockEdit.Proofs.Engine
import BlockEdit.Proofs.Edited
import BlockEdit.Proofs.Meaning
import BlockEdit.Proofs.Apart
import BlockEdit.Proofs.Following
import BlockEdit.Proofs.TypedText
import BlockEdit.Proofs.Atomicity
import BlockEdit.Proofs.WrittenBack
import BlockEdit.Proofs.Refinement
import BlockEdit.Proofs.Selection
import BlockEdit.Proofs.Touched
import BlockEdit.Proofs.SetParameter
import BlockEdit.Proofs.Canonical
import BlockEdit.Proofs.Views
import BlockEdit.Proofs.Agreement
import BlockEdit.Proofs.ParameterLines
import BlockEdit.Proofs.Patterns
import BlockEdit.Proofs.Resolving
import BlockEdit.Proofs.Respelled
import BlockEdit.Proofs.Waiting
import BlockEdit.Proofs.SwitchBack
import BlockEdit.Proofs.Typing
import BlockEdit.Proofs.Additions
import BlockEdit.Proofs.Locators
import BlockEdit.Proofs.FreeNames
import BlockEdit.Proofs.SplitPaths
import BlockEdit.Proofs.Debouncing
import BlockEdit.Proofs.CatalogTexts
import BlockEdit.Proofs.WireForm
import BlockEdit.Proofs.LineByLine
