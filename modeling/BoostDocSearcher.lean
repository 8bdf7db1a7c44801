import BoostDocSearcher.Library.Delimited
import BoostDocSearcher.Library.Occurrence
import BoostDocSearcher.Library.Tally
import BoostDocSearcher.Library.Retrieval
import BoostDocSearcher.Library.Utf8
import BoostDocSearcher.Library.Rewriting
import BoostDocSearcher.Library.Choice
import BoostDocSearcher.Library.PrefixTree
import BoostDocSearcher.Library.Transition
import BoostDocSearcher.Library.PathWalk
import BoostDocSearcher.Library.Framing
import BoostDocSearcher.Text
import BoostDocSearcher.Parser
import BoostDocSearcher.Index
import BoostDocSearcher.RawFormat
import BoostDocSearcher.Pipeline
import BoostDocSearcher.Stripping
import BoostDocSearcher.Title
import BoostDocSearcher.Markup
import BoostDocSearcher.Postings
import BoostDocSearcher.Searcher
import BoostDocSearcher.Snippet
import BoostDocSearcher.Encoding
import BoostDocSearcher.Page
import BoostDocSearcher.Ranking
import BoostDocSearcher.Enumeration
import BoostDocSearcher.CaseFolding
import BoostDocSearcher.Location
import BoostDocSearcher.Cppjieba.Unicode
import BoostDocSearcher.Cppjieba.Trie
import BoostDocSearcher.Cppjieba.MPSegment
import BoostDocSearcher.Cppjieba.DictTrie
import BoostDocSearcher.Cppjieba.HMMSegment
import BoostDocSearcher.Cppjieba.HMMModel
import BoostDocSearcher.Cppjieba.QuerySegment
import BoostDocSearcher.Segmenter
import BoostDocSearcher.Httplib
import BoostDocSearcher.Httplib.StaticFiles
import BoostDocSearcher.Httplib.Ranges
import BoostDocSearcher.Httplib.Messages
import BoostDocSearcher.Httplib.Content
import BoostDocSearcher.Httplib.Server
import BoostDocSearcher.Httplib.ThreadPool
import BoostDocSearcher.Submission
import BoostDocSearcher.Handler
import BoostDocSearcher.Connection
import BoostDocSearcher.Service
