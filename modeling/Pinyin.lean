import Pinyin.CutGraph.Merge
import Pinyin.CutGraph.Printer
import Pinyin.Decimal.Fixed
import Pinyin.Decoder.Basic
import Pinyin.History.File
import Pinyin.LanguageModel.Personal
import Pinyin.Lexicon.File
import Pinyin.Proofs.Code.Full
import Pinyin.Proofs.Code.Stable
import Pinyin.Proofs.CutGraph.SpanListing
import Pinyin.Proofs.CutGraph.Stale
import Pinyin.Proofs.CutGraph.Tables
import Pinyin.Proofs.CutGraph.Traversal
import Pinyin.Proofs.CutGraph.Visit
import Pinyin.Proofs.Decoder.NBest
import Pinyin.Proofs.Decoder.Unweighted
import Pinyin.Proofs.History.Estimate
import Pinyin.Proofs.History.Pairs
import Pinyin.Proofs.History.Resave
import Pinyin.Proofs.History.Truncation
import Pinyin.Proofs.Lexicon.Canonical
import Pinyin.Proofs.Lexicon.Saved
import Pinyin.Proofs.MessagePack.Length
import Pinyin.Proofs.Reading.Marks
import Pinyin.Proofs.Segmentation.FirstEdge
import Pinyin.Proofs.Segmentation.Locality
import Pinyin.Proofs.Segmentation.Overrun
import Pinyin.Proofs.Session.Link
import Pinyin.Proofs.Session.Passable
